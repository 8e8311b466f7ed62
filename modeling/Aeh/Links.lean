import Mathlib.Data.List.TakeWhile
import Aeh.Paging
import Aeh.Py.Url

/-!
# Links — the listing of the two services

`GET /v1/incidents` answers with a cursor, the page of the review service with a link whose query string carries the
filters, the limit and the cursor.  FastAPI reads the query of that link as what has been written into it, so the links
lead where the cursors do (`ReviewWeb.links_follow`).
-/

namespace Aeh

/-- `INCIDENT_STATES`. -/
def incidentStates : List PyStr :=
  [IncidentState.received, .analyzing, .awaitingApproval, .patching, .validating, .analysisFailed, .patchReady,
    .patchFailed].map IncidentState.text

/-- The parameters of the listing. -/
structure ListQuery where
  serviceKey : Option PyStr
  state : Option PyStr
  cursor : Option PyStr
  limit : ℤ

/-- `QueryParams.get`: the last value of a key. -/
def queryParam (params : List (PyStr × PyStr)) (key : String) : Option PyStr :=
  (params.reverse.find? fun kv => kv.1 = lit key).map (·.2)

/-- `limit: int = 20`. -/
def limitParam (laxInt : Json → Option ℤ) : Option PyStr → Except Exn ℤ
  | none => .ok 20
  | some s =>
    match laxInt (.str s) with
    | some limit => .ok limit
    | none => .error .validationError

/-- What FastAPI reads from a query string. -/
def ListQuery.parse (laxInt : Json → Option ℤ) (qs : PyStr) : Except Exn ListQuery := do
  let params := Url.parseQsl qs
  let limit ← limitParam laxInt (queryParam params "limit")
  .ok ⟨queryParam params "serviceKey", queryParam params "state", queryParam params "cursor", limit⟩

/-- What `list_page` returns. -/
structure ListPage where
  items : List IncidentSummary
  nextQuery : Option PyStr
  serviceKey : PyStr
  state : PyStr
  states : List PyStr
  limit : ℤ

section Routes

variable (hmac : PyStr → Bytes → Bytes) (settings : Settings) (backend : Backend) (db : Store)

/-- `if state and state not in INCIDENT_STATES` in both services. -/
def checkState (state : Option PyStr) : Except Exn Unit :=
  if (given state).any fun s => s ∉ incidentStates then .error (aehError 400 "AEH-EVENT-400-001" "Unknown incident state")
  else .ok ()

/-- `incidents` of the control API, with its parameters. -/
def ControlApi.incidents (q : ListQuery) : Except Exn (List IncidentSummary × Option PyStr) := do
  checkState q.state
  listIncidents hmac settings backend db q.serviceKey q.state q.cursor q.limit

/-- `next_query`. -/
def nextQuery (q : ListQuery) : Option PyStr → Except Exn (Option PyStr)
  | none => .ok none
  | some cursor =>
    match Url.urlencode [(lit "serviceKey", q.serviceKey.getD []), (lit "state", q.state.getD []),
        (lit "cursor", cursor), (lit "limit", lit (toString q.limit))] with
    | some qs => .ok (some qs)
    | none => .error (.valueError (lit "surrogates not allowed"))

/-- `list_page`. -/
def ReviewService.listPage (q : ListQuery) : Except Exn ListPage := do
  checkState q.state
  let (items, nextCursor) ← listIncidents hmac settings backend db q.serviceKey q.state q.cursor q.limit
  let next ← nextQuery q (given nextCursor)
  .ok ⟨items, next, q.serviceKey.getD [], q.state.getD [], incidentStates, q.limit⟩

/-- `incidents` of the review service, at a query string. -/
def ReviewWeb.incidents (qs : PyStr) : Except Exn ListPage := do
  let q ← ListQuery.parse settings.laxInt qs
  ReviewService.listPage hmac settings backend db q

/-- The page behind the first address or a link of a page before: its items and the link to the next one. -/
def ReviewWeb.browse (first : PyStr) (link : Option PyStr) : Except Exn (List IncidentSummary × Option PyStr) :=
  (ReviewWeb.incidents hmac settings backend db (link.getD first)).map fun page => (page.items, page.nextQuery)

end Routes

/-- pydantic reads `str(n)` of a possible limit as `n`. -/
def ReadsInt (laxInt : Json → Option ℤ) : Prop := ∀ n : ℤ, 1 ≤ n ∧ n ≤ 100 → laxInt (.str (lit (toString n))) = some n

/-! ## Texts without surrogates -/

theorem lit_scalar (s : String) : (lit s).all Utf8.isScalar = true := by
  refine List.all_eq_true.mpr fun c hc => ?_
  obtain ⟨ch, -, rfl⟩ := List.mem_map.mp hc
  have h := ch.valid
  simp only [UInt32.isValidChar, Nat.isValidChar] at h
  show (decide (ch.val.toNat < 0xD800) || decide (0xDFFF < ch.val.toNat)) = true
  simp only [Bool.or_eq_true, decide_eq_true_eq]
  omega

namespace Base64

/-- The padding is in reach of `char` too. -/
theorem char_ascii_all (n : ℕ) : (char n).val < 0x80 := by
  by_cases h : n < 64
  · exact char_ascii h
  · have hlen : alphabet.length = 64 := rfl
    rw [char, List.getD_eq_getElem?_getD, List.getElem?_eq_none (by omega)]
    decide

theorem encode_ascii (bs : Bytes) : ∀ c ∈ encode bs, c.val < 0x80 := by
  have hpad : (cp '=').val < 0x80 := by decide
  induction bs using encode.induct with
  | case1 => exact fun _ hc => absurd hc List.not_mem_nil
  | case2 | case3 => simp [encode, char_ascii_all, hpad]
  | case4 a b c rest ih =>
    simp only [encode, List.forall_mem_cons]
    exact ⟨char_ascii_all _, char_ascii_all _, char_ascii_all _, char_ascii_all _, ih⟩

/-- The text of some bytes does not start with the padding. -/
theorem encode_cons (b : UInt8) (bs : Bytes) : ∃ c s, encode (b :: bs) = c :: s ∧ c ≠ cp '=' := by
  have hb : b.toNat / 4 < 64 := by
    have := b.toNat_lt
    omega
  match bs with
  | [] | [_] | _ :: _ :: _ => exact ⟨_, _, rfl, char_ne_pad hb⟩

theorem mem_of_rstrip {s : PyStr} {c : CodePoint} (h : c ∈ rstrip s) : c ∈ s := by
  rw [rstrip, List.mem_reverse] at h
  exact List.mem_reverse.mp ((List.dropWhile_sublist _).mem h)

theorem rstrip_cons_ne_nil {c : CodePoint} {s : PyStr} (h : c ≠ cp '=') : rstrip (c :: s) ≠ [] := by
  intro hr
  rw [rstrip, List.reverse_eq_nil_iff, List.dropWhile_eq_nil_iff] at hr
  exact h (of_decide_eq_true (hr c (List.mem_reverse.mpr (List.mem_cons_self ..))))

end Base64

section Cursor

variable {hmac : PyStr → Bytes → Bytes} {secret : PyStr} {row : Incident}

theorem cursorEncode_scalar : (cursorEncode hmac secret row).all Utf8.isScalar = true := by
  refine List.all_eq_true.mpr fun c hc => ?_
  have h := Base64.encode_ascii _ c (Base64.mem_of_rstrip hc)
  simp only [Utf8.isScalar, Bool.or_eq_true, decide_eq_true_eq]
  omega

/-- A cursor is never the empty string. -/
theorem given_cursorEncode : given (some (cursorEncode hmac secret row)) = some (cursorEncode hmac secret row) := by
  have hne : cursorEncode hmac secret row ≠ [] := by
    unfold cursorEncode
    cases hd : Utf8.encode (cursorText row.createdAt row.id) with
    | nil =>
      obtain ⟨c, s, he, hc⟩ := Base64.encode_cons bar (cursorTag hmac secret [])
      dsimp only
      rw [List.nil_append, he]
      exact Base64.rstrip_cons_ne_nil hc
    | cons b bs =>
      obtain ⟨c, s, he, hc⟩ := Base64.encode_cons b (bs ++ bar :: cursorTag hmac secret (b :: bs))
      dsimp only
      rw [List.cons_append, he]
      exact Base64.rstrip_cons_ne_nil hc
  simp [given, hne]

end Cursor

/-! ## A link -/

section Link

variable {hmac : PyStr → Bytes → Bytes} {settings : Settings} {backend : Backend} {db : Store} {q : ListQuery}

theorem given_getD (s : Option PyStr) : given (some (s.getD [])) = given s := by
  cases s with
  | none => rfl
  | some s => rfl

/-- A filter that the driver can send has no surrogates. -/
theorem scalar_of_sends {filter : Option PyStr} (h : backend.sends filter = true) :
    (filter.getD []).all Utf8.isScalar = true := by
  cases filter with
  | none => rfl
  | some s =>
    by_cases hs : s = []
    · subst hs
      rfl
    · have hg : given (some s) = some s := by simp [given, hs]
      rw [Backend.sends, hg] at h
      exact ((Bool.and_eq_true _ _).mp h).2

/-- What the query of a link is read as. -/
def ListQuery.linked (q : ListQuery) (cursor : PyStr) : ListQuery :=
  ⟨some (q.serviceKey.getD []), some (q.state.getD []), some cursor, q.limit⟩

/-- **A link is read as what has been written into it.** -/
theorem nextQuery_parse (hint : ReadsInt settings.laxInt) (hl : 1 ≤ q.limit ∧ q.limit ≤ 100) 
    (hk : (q.serviceKey.getD []).all Utf8.isScalar = true) (hs : (q.state.getD []).all Utf8.isScalar = true)
    {cursor : PyStr} (hc : cursor.all Utf8.isScalar = true) :
    ∃ qs, nextQuery q (some cursor) = .ok (some qs) ∧ ListQuery.parse settings.laxInt qs = .ok (q.linked cursor) := by
  have hscalar : ∀ kv ∈ [(lit "serviceKey", q.serviceKey.getD []), (lit "state", q.state.getD []), (lit "cursor", cursor),
      (lit "limit", lit (toString q.limit))], kv.1.all Utf8.isScalar = true ∧ kv.2.all Utf8.isScalar = true := by
    simp only [List.forall_mem_cons, List.not_mem_nil, false_imp_iff, implies_true, and_true]
    exact ⟨⟨lit_scalar _, hk⟩, ⟨lit_scalar _, hs⟩, ⟨lit_scalar _, hc⟩, lit_scalar _, lit_scalar _⟩
  obtain ⟨qs, hw, hr⟩ := Url.parseQsl_urlencode (List.cons_ne_nil _ _) hscalar
  refine ⟨qs, by simp only [nextQuery, hw], ?_⟩
  have hlimit : limitParam settings.laxInt (some (lit (toString q.limit))) = .ok q.limit := by
    simp only [limitParam, hint q.limit hl]
  unfold ListQuery.parse
  rw [hr]
  show (limitParam settings.laxInt (some (lit (toString q.limit))) >>= _) = _
  rw [hlimit]
  rfl

/-- A blank filter is none. -/
theorem listIncidents_getD (serviceKey state cursor : Option PyStr) (limit : ℤ) :
    listIncidents hmac settings backend db (some (serviceKey.getD [])) (some (state.getD [])) cursor limit =
      listIncidents hmac settings backend db serviceKey state cursor limit := by
  have hsends : ∀ filter : Option PyStr, backend.sends (some (filter.getD [])) = backend.sends filter := fun filter => by
    rw [Backend.sends, given_getD, Backend.sends]
  have hrows : matching db (some (serviceKey.getD [])) (some (state.getD [])) = matching db serviceKey state := by
    have hf : filtered (some (serviceKey.getD [])) (some (state.getD [])) = filtered serviceKey state :=
      funext fun row => by simp only [filtered, given_getD]
    rw [matching, hf, matching]
  unfold listIncidents IncidentRepository.listRows
  rw [hsends, hsends, hrows]

/-- The page of a link. -/
theorem listPage_linked (cursor : PyStr) : ReviewService.listPage hmac settings backend db (q.linked cursor) =
    ReviewService.listPage hmac settings backend db { q with cursor := some cursor } := by
  simp only [ReviewService.listPage, ListQuery.linked, checkState, given_getD, listIncidents_getD, nextQuery,
    Option.getD_some]

/-- What `list_incidents` returns with a limit in range and filters that are sent. -/
theorem listIncidents_ok {items : List IncidentSummary} {next : Option PyStr}
    (h : listIncidents hmac settings backend db q.serviceKey q.state q.cursor q.limit = .ok (items, next)) :
    (1 ≤ q.limit ∧ q.limit ≤ 100) ∧ (backend.sends q.serviceKey = true ∧ backend.sends q.state = true) ∧
      ∀ cursor ∈ next, given (some cursor) = some cursor ∧ cursor.all Utf8.isScalar = true := by
  rw [listIncidents] at h
  split_ifs at h with hl
  obtain ⟨before, -, h⟩ := bind_eq_ok.mp h
  obtain ⟨rows, hr, h⟩ := bind_eq_ok.mp h
  have hsends : (backend.sends q.serviceKey && backend.sends q.state) = true := by
    by_contra hs
    rw [IncidentRepository.listRows, if_neg hs] at hr
    cases hr
  refine ⟨hl, (Bool.and_eq_true _ _).mp hsends, ?_⟩
  obtain ⟨-, rfl⟩ := Prod.mk.inj (Except.ok.inj h)
  intro cursor hc
  split_ifs at hc
  · obtain ⟨row, -, rfl⟩ := Option.map_eq_some_iff.mp hc
    exact ⟨given_cursorEncode, cursorEncode_scalar⟩
  · cases hc

end Link

/-! ## The pages and the API -/

namespace ReviewWeb

variable {hmac : PyStr → Bytes → Bytes} {settings : Settings} {backend : Backend} {db : Store} {q : ListQuery}

/-- The page is made of what the API lists. -/
theorem listPage_bind : ReviewService.listPage hmac settings backend db q =
    ControlApi.incidents hmac settings backend db q >>= fun listed =>
      nextQuery q (given listed.2) >>= fun next =>
        .ok ⟨listed.1, next, q.serviceKey.getD [], q.state.getD [], incidentStates, q.limit⟩ := by
  unfold ReviewService.listPage ControlApi.incidents
  rw [bind_assoc]

/-- The page shows what the API lists, and its link leads to the page of the cursor, whatever the store is then. -/
theorem listPage_eq (hint : ReadsInt settings.laxInt) {items : List IncidentSummary} {next : Option PyStr}
    (h : ControlApi.incidents hmac settings backend db q = .ok (items, next)) :
    ∃ page, ReviewService.listPage hmac settings backend db q = .ok page ∧ page.items = items ∧
      (page.nextQuery = none ↔ next = none) ∧
      ∀ link ∈ page.nextQuery, ∃ cursor ∈ next, ∀ db', ReviewWeb.incidents hmac settings backend db' link =
        ReviewService.listPage hmac settings backend db' { q with cursor := some cursor } := by
  obtain ⟨_, -, hl⟩ := bind_eq_ok.mp h
  obtain ⟨hlimit, ⟨hk, hs⟩, hnext⟩ := listIncidents_ok hl
  rw [listPage_bind, h]
  cases next with
  | none => exact ⟨⟨items, none, q.serviceKey.getD [], q.state.getD [], incidentStates, q.limit⟩, rfl, rfl, Iff.rfl, nofun⟩
  | some cursor =>
    obtain ⟨hg, hc⟩ := hnext cursor rfl
    obtain ⟨qs, hw, hr⟩ := nextQuery_parse hint hlimit (scalar_of_sends hk) (scalar_of_sends hs) hc
    refine ⟨⟨items, some qs, q.serviceKey.getD [], q.state.getD [], incidentStates, q.limit⟩, ?_, rfl,
      iff_of_false nofun nofun, ?_⟩
    · show (nextQuery q (given (some cursor)) >>= _) = _
      rw [hg, hw]
      rfl
    · intro link hlink
      obtain rfl := Option.some.inj hlink
      refine ⟨cursor, rfl, fun db' => ?_⟩
      unfold ReviewWeb.incidents
      rw [hr]
      exact listPage_linked _

/-- Where the API fails the page does. -/
theorem listPage_error {e : Exn} (h : ControlApi.incidents hmac settings backend db q = .error e) :
    ReviewService.listPage hmac settings backend db q = .error e := by
  rw [listPage_bind, h]
  rfl

/-- The page of a link and the cursor it was made of. -/
def Linked (hmac : PyStr → Bytes → Bytes) (settings : Settings) (backend : Backend) (db : Store) (q : ListQuery)
    (first : PyStr) (link cursor : Option PyStr) : Prop :=
  ReviewWeb.incidents hmac settings backend db (link.getD first) =
    ReviewService.listPage hmac settings backend db { q with cursor := cursor }

variable {first : PyStr} {link cursor : Option PyStr}

theorem Linked.browse (hint : ReadsInt settings.laxInt) (h : Linked hmac settings backend db q first link cursor)
    {items : List IncidentSummary} {next : Option PyStr}
    (ha : ControlApi.incidents hmac settings backend db { q with cursor := cursor } = .ok (items, next)) :
    ∃ next', ReviewWeb.browse hmac settings backend db first link = .ok (items, next') ∧ (next' = none ↔ next = none) ∧
      (next' ≠ none → Linked hmac settings backend db q first next' next) := by
  obtain ⟨page, hp, rfl, hn, hl⟩ := listPage_eq hint ha
  refine ⟨page.nextQuery, ?_, hn, fun hne => ?_⟩
  · unfold ReviewWeb.browse
    rw [h.trans hp]
    rfl
  · obtain ⟨l, hlink⟩ := Option.ne_none_iff_exists'.mp hne
    obtain ⟨c, rfl, hdb⟩ := hl l hlink
    rw [hlink]
    exact hdb db

/-- And where the page is shown the API answers. -/
theorem Linked.incidents (hint : ReadsInt settings.laxInt) (h : Linked hmac settings backend db q first link cursor)
    {items : List IncidentSummary} {next : Option PyStr}
    (hb : ReviewWeb.browse hmac settings backend db first link = .ok (items, next)) :
    ∃ next', ControlApi.incidents hmac settings backend db { q with cursor := cursor } = .ok (items, next') ∧
      (next' = none ↔ next = none) ∧ (next ≠ none → Linked hmac settings backend db q first next next') := by
  cases ha : ControlApi.incidents hmac settings backend db { q with cursor := cursor } with
  | error e =>
    unfold ReviewWeb.browse at hb
    rw [h.trans (listPage_error ha)] at hb
    cases hb
  | ok listed =>
    obtain ⟨next', hb', hn, hr⟩ := h.browse hint ha
    obtain ⟨rfl, rfl⟩ := Prod.mk.inj (Except.ok.inj (hb.symm.trans hb'))
    exact ⟨listed.2, rfl, hn.symm, hr⟩

/-- **The links of the pages lead where the cursors do**: the page at an address shows what the API lists for its
parameters and fails as it does; its link, followed at any later time, leads to the page of the cursor the API gives; and
following links ends with the same items as following cursors. -/
theorem links_follow (hint : ReadsInt settings.laxInt) (hq : ListQuery.parse settings.laxInt first = .ok q) :
    (∀ db, (ReviewWeb.incidents hmac settings backend db first).map ListPage.items =
      (ControlApi.incidents hmac settings backend db q).map Prod.fst) ∧
    (∀ db page link, ReviewWeb.incidents hmac settings backend db first = .ok page → page.nextQuery = some link →
      ∃ cursor, ControlApi.incidents hmac settings backend db q = .ok (page.items, some cursor) ∧
        ∀ db', ReviewWeb.incidents hmac settings backend db' link =
          ReviewService.listPage hmac settings backend db' { q with cursor := some cursor }) ∧
    ∀ db items, Follows (ReviewWeb.browse hmac settings backend db first) none items ↔
      Follows (fun cursor => ControlApi.incidents hmac settings backend db { q with cursor := cursor }) q.cursor items := by
  have hfirst : ∀ db, ReviewWeb.incidents hmac settings backend db first =
      ReviewService.listPage hmac settings backend db q := fun db => by
    unfold ReviewWeb.incidents
    rw [hq]
    rfl
  refine ⟨fun db => ?_, fun db page link hp hl => ?_, fun db items => ⟨?_, ?_⟩⟩
  · rw [hfirst]
    cases ha : ControlApi.incidents hmac settings backend db q with
    | error e =>
      rw [listPage_error ha]
      rfl
    | ok listed =>
      obtain ⟨page, hp, hi, -, -⟩ := listPage_eq hint ha
      rw [hp]
      exact congrArg Except.ok hi
  · rw [hfirst] at hp
    cases ha : ControlApi.incidents hmac settings backend db q with
    | error e =>
      rw [listPage_error ha] at hp
      cases hp
    | ok listed =>
      obtain ⟨page', hp', hi, -, hlink⟩ := listPage_eq hint ha
      obtain rfl := Except.ok.inj (hp.symm.trans hp')
      obtain ⟨cursor, hc, hdb⟩ := hlink link hl
      exact ⟨cursor, congrArg Except.ok (Prod.ext hi.symm hc), hdb⟩
  · refine Follows.rel (R := Linked hmac settings backend db q first) (fun link cursor listed next hr hb => ?_) (hfirst db)
    obtain ⟨next', ha, hn, hr'⟩ := hr.incidents hint hb
    exact ⟨next', ha, hn, hr'⟩
  · refine Follows.rel (R := fun cursor link => Linked hmac settings backend db q first link cursor)
      (fun cursor link listed next hr ha => ?_) (hfirst db)
    obtain ⟨next', hb, hn, hr'⟩ := hr.browse hint ha
    exact ⟨next', hb, hn, fun hne => hr' (mt hn.mp hne)⟩

end ReviewWeb

/-! The pages of one incident each. -/

namespace Browsed

def digits (s : PyStr) : Option ℕ :=
  s.foldl (fun read c => read.bind fun n => if isDigit c then some (10 * n + (c.val - 0x30)) else none)
    (if s = [] then none else some 0)

/-- Settings that read decimal numbers. -/
def settings : Settings :=
  { Sample.settings with
    laxInt := fun j => match j with
      | .int n => some n
      | .str s => (digits s).map Int.ofNat
      | _ => none }

theorem readsInt : ReadsInt settings.laxInt := by
  have h : ∀ k : Fin 101, settings.laxInt (.str (lit (toString (k.val : ℤ)))) = some (k.val : ℤ) := by decide
  intro n hn
  obtain ⟨m, rfl⟩ := Int.eq_ofNat_of_zero_le (show 0 ≤ n by omega)
  exact h ⟨m, by omega⟩

/-- The API lists both incidents. -/
theorem cursors_follow : Follows (fun cursor => listIncidents Pages.hmac settings .postgresql Pages.db none none cursor 1) none
    ((ordered .postgresql Pages.db none none).map incidentSummary) := by
  refine (listIncidents_simulates (by decide) rfl (Pages.stamped .postgresql)).follows (c := none) nofun ?_
  refine follows_page (by decide) fun l₁ x l₂ h => ?_
  rw [show afterRow .postgresql x = _ from funext (afterRow_postgresql x)]
  exact filter_key_lt ordered_strict h

/-- So do the pages. -/
theorem links_follow_sample : Follows (ReviewWeb.browse Pages.hmac settings .postgresql Pages.db (lit "limit=1")) none
    ((ordered .postgresql Pages.db none none).map incidentSummary) :=
  ((ReviewWeb.links_follow (q := ⟨none, none, none, 1⟩) readsInt rfl).2.2 Pages.db _).mpr cursors_follow

end Browsed

end Aeh
