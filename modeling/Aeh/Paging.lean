import Aeh.Listing
import Aeh.System

/-!
# Paging — what following the cursors of `list_incidents` yields

`list_incidents` is simulated by paging through the ordered list of matching rows.  On PostgreSQL a cursor
selects the rows behind it.  On SQLite it selects its own row too, so the listing is complete only where one
page holds everything.
-/

namespace Aeh

/-- `created_at` is a UTC time, on SQLite one of `CURRENT_TIMESTAMP`. -/
def Datetime.StampedBy (backend : Backend) (d : Datetime) : Prop :=
  d.Valid ∧ d.offset = some 0 ∧ (backend = .sqlite → d.microsecond = 0)

/-- Every incident has the time its backend gave it. -/
def Store.Stamped (backend : Backend) (db : Store) : Prop :=
  ∀ i ∈ db.incidents.rows, i.createdAt.StampedBy backend

/-- `a` is listed before `b`. -/
def Incident.Newer (a b : Incident) : Prop :=
  b.createdAt.instant < a.createdAt.instant ∨ (b.createdAt.instant = a.createdAt.instant ∧ b.id < a.id)

/-! ## The order of the columns -/

theorem textCell_lt {s t : PyStr} : textCell s < textCell t ↔ s < t := by
  refine map_lt_map (fun a b => ?_) fun a b h => ?_
  · rw [Fin.lt_def]
    omega
  · exact Fin.ext (by omega)

namespace Backend

variable {backend : Backend}

theorem idCell_lt (a b : Uuid) : backend.idCell a < backend.idCell b ↔ a < b := by
  cases backend with
  | sqlite => exact textCell_lt.trans (Uuid.hex_lt_iff a b)
  | postgresql =>
    show [(a.val : ℤ)] < [(b.val : ℤ)] ↔ a < b
    rw [List.cons_lt_cons_iff, Fin.lt_def]
    simp

theorem idCell_inj {a b : Uuid} (h : backend.idCell a = backend.idCell b) : a = b := by
  rcases lt_trichotomy a b with hab | hab | hab
  · exact absurd ((idCell_lt a b).mpr hab) (by rw [h]; exact List.lt_irrefl _)
  · exact hab
  · exact absurd ((idCell_lt b a).mpr hab) (by rw [h]; exact List.lt_irrefl _)

variable {a b : Datetime} (ha : a.StampedBy backend) (hb : b.StampedBy backend)

include ha hb

/-- Stored times compare as instants. -/
theorem created_lt : backend.created a < backend.created b ↔ a.instant < b.instant := by
  cases backend with
  | sqlite =>
    exact textCell_lt.trans
      (Datetime.secondsText_lt_iff_instant ha.1 hb.1 ha.2.1 hb.2.1 (ha.2.2 rfl) (hb.2.2 rfl))
  | postgresql =>
    show [a.instant] < [b.instant] ↔ _
    rw [List.cons_lt_cons_iff]
    simp

theorem created_eq : backend.created a = backend.created b ↔ a.instant = b.instant := by
  have hab := created_lt ha hb
  have hba := created_lt hb ha
  constructor
  · intro h
    have h1 := mt hab.mpr (by rw [h]; exact List.lt_irrefl _)
    have h2 := mt hba.mpr (by rw [h]; exact List.lt_irrefl _)
    omega
  · intro h
    have h1 := mt hab.mp (by omega)
    have h2 := mt hba.mp (by omega)
    exact le_antisymm (not_lt.mp h2) (not_lt.mp h1)

end Backend

/-! ## The matching rows -/

section Rows

variable {backend : Backend} {db : Store} {serviceKey state : Option PyStr} {x y : Incident × PyStr}

theorem mem_joined (h : x ∈ joined db) :
    x.1 ∈ db.incidents.rows ∧ ∃ s, db.services.get x.1.serviceId = some s ∧ x.2 = s.key := by
  obtain ⟨i, hi, h⟩ := List.mem_filterMap.mp h
  obtain ⟨s, hs, rfl⟩ := Option.map_eq_some_iff.mp h
  exact ⟨hi, s, hs, rfl⟩

/-- An id determines the row. -/
theorem joined_inj (hx : x ∈ joined db) (hy : y ∈ joined db) (h : x.1.id = y.1.id) : x = y := by
  obtain ⟨hxi, s, hs, hxs⟩ := mem_joined hx
  obtain ⟨hyi, s', hs', hys⟩ := mem_joined hy
  have hi : x.1 = y.1 := Table.eq_of_key hxi hyi h
  rw [hi, hs'] at hs
  cases hs
  exact Prod.ext hi (hxs.trans hys.symm)

theorem joined_nodup : (joined db).Nodup := by
  refine List.Nodup.filterMap ?_ (List.Nodup.of_map _ db.incidents.nodup)
  intro i j row hi hj
  obtain ⟨s, -, rfl⟩ := Option.map_eq_some_iff.mp hi
  obtain ⟨s', -, h⟩ := Option.map_eq_some_iff.mp hj
  exact (congrArg Prod.fst h).symm

theorem mem_of_matching (h : x ∈ matching db serviceKey state) : x ∈ joined db := (List.mem_filter.mp h).1

theorem matching_nodup : (matching db serviceKey state).Nodup := joined_nodup.filter _

theorem rowKey_inj : ∀ x ∈ matching db serviceKey state, ∀ y ∈ matching db serviceKey state,
    rowKey backend x = rowKey backend y → x = y := by
  intro x hx y hy h
  have hid := Backend.idCell_inj (congrArg (fun k => (ofLex k).2) h)
  exact joined_inj (mem_of_matching hx) (mem_of_matching hy) hid

theorem stamped_of_mem (hst : db.Stamped backend) (h : x ∈ joined db) : x.1.createdAt.StampedBy backend :=
  hst x.1 (mem_joined h).1

/-- Rows compare as the listing shows them, whatever store each one is of. -/
theorem rowKey_lt_stamped (hx : x.1.createdAt.StampedBy backend) (hy : y.1.createdAt.StampedBy backend) :
    rowKey backend y < rowKey backend x ↔ x.1.Newer y.1 := by
  rw [rowKey, rowKey, Prod.Lex.toLex_lt_toLex]
  dsimp only
  rw [Backend.created_lt hy hx, Backend.created_eq hy hx, Backend.idCell_lt]
  rfl

theorem rowKey_lt (hst : db.Stamped backend) (hx : x ∈ joined db) (hy : y ∈ joined db) :
    rowKey backend y < rowKey backend x ↔ x.1.Newer y.1 :=
  rowKey_lt_stamped (stamped_of_mem hst hx) (stamped_of_mem hst hy)

variable (backend db serviceKey state)

/-- The matching rows in the order of the listing. -/
def ordered : List (Incident × PyStr) := sortDesc (rowKey backend) (matching db serviceKey state)

/-- The condition of a cursor made of the row `x`. -/
def afterRow (x y : Incident × PyStr) : Bool := isBefore backend (x.1.createdAt, x.1.id) y

variable {backend db serviceKey state}

theorem mem_ordered : x ∈ ordered backend db serviceKey state ↔ x ∈ matching db serviceKey state := mem_sortDesc

theorem ordered_perm : (ordered backend db serviceKey state).Perm (matching db serviceKey state) := sortDesc_perm _ _

theorem ordered_strict :
    (ordered backend db serviceKey state).Pairwise fun x y => rowKey backend y < rowKey backend x :=
  sortDesc_strict rowKey_inj matching_nodup

theorem ordered_newer (hst : db.Stamped backend) :
    (ordered backend db serviceKey state).Pairwise fun x y => x.1.Newer y.1 := by
  refine ordered_strict.imp_of_mem ?_
  intro x y hx hy h
  exact (rowKey_lt hst (mem_of_matching (mem_ordered.mp hx)) (mem_of_matching (mem_ordered.mp hy))).mp h

/-- On PostgreSQL a cursor selects the smaller keys. -/
theorem afterRow_postgresql (x y : Incident × PyStr) :
    afterRow .postgresql x y = decide (rowKey .postgresql y < rowKey .postgresql x) := by
  rw [afterRow, isBefore, rowKey, rowKey, Bool.eq_iff_iff, decide_eq_true_eq, Prod.Lex.toLex_lt_toLex]
  simp only [Bool.or_eq_true, Bool.and_eq_true, decide_eq_true_eq]
  rfl

/-- On SQLite a cursor selects its own row. -/
theorem afterRow_sqlite (x : Incident × PyStr) : afterRow .sqlite x x = true := by
  have h : Backend.sqlite.created x.1.createdAt < Backend.sqlite.bound x.1.createdAt :=
    textCell_lt.mpr (lt_append_cons _ _ _)
  rw [afterRow, isBefore, decide_eq_true h, Bool.true_or]

end Rows

/-! ## The simulation -/

section Simulation

variable {hmac : PyStr → Bytes → Bytes} {settings : Settings} {backend : Backend} {db : Store}
  {serviceKey state : Option PyStr} {limit : ℤ}

/-- The rows a page is taken of, behind a row that may have been changed since. -/
theorem listRows_stamped (hs : (backend.sends serviceKey && backend.sends state) = true)
    {c : Option (Incident × PyStr)} (hc : ∀ x ∈ c, x.1.createdAt.StampedBy backend) (n : ℕ) :
    IncidentRepository.listRows backend db serviceKey state (c.map fun x => (x.1.createdAt, x.1.id)) n =
      .ok ((behind (ordered backend db serviceKey state) (afterRow backend) c).take n) := by
  rw [IncidentRepository.listRows, if_pos hs]
  cases c with
  | none =>
    have hall : (matching db serviceKey state).filter (fun row => (none : Option (Datetime × Uuid)).all fun b =>
        isBefore backend b row) = matching db serviceKey state := List.filter_eq_self.mpr fun _ _ => rfl
    show Except.ok _ = _
    rw [hall]
    rfl
  | some x =>
    have hx := hc x rfl
    have hbind : bindBefore (some (x.1.createdAt, x.1.id)) = .ok (some (x.1.createdAt, x.1.id)) := by
      rw [bindBefore, Datetime.toUtc_utc hx.1 hx.2.1]
    rw [Option.map_some, hbind]
    show Except.ok ((sortDesc (rowKey backend) ((matching db serviceKey state).filter (afterRow backend x))).take n) = _
    rw [sortDesc_filter rowKey_inj]
    rfl

/-- The rows a page is taken of. -/
theorem listRows_eq (hs : (backend.sends serviceKey && backend.sends state) = true) (hst : db.Stamped backend)
    {c : Option (Incident × PyStr)} (hc : ∀ x ∈ c, x ∈ matching db serviceKey state) (n : ℕ) :
    IncidentRepository.listRows backend db serviceKey state (c.map fun x => (x.1.createdAt, x.1.id)) n =
      .ok ((behind (ordered backend db serviceKey state) (afterRow backend) c).take n) :=
  listRows_stamped hs (fun x hx => stamped_of_mem hst (mem_of_matching (hc x hx))) n

theorem cursorEncode_ne_nil {row : Incident} (hd : row.createdAt.Valid) (ho : row.createdAt.offset = some 0) :
    cursorEncode hmac settings.cursorSecret row ≠ [] := by
  intro h
  have hr : cursorRead hmac settings.cursorSecret (cursorEncode hmac settings.cursorSecret row) = _ :=
    cursorRead_cursorEncode hd ho
  rw [h] at hr
  cases hr

/-- A cursor is read back. -/
theorem beforeOf_stamped {c : Option (Incident × PyStr)} (hc : ∀ x ∈ c, x.1.createdAt.StampedBy backend) :
    beforeOf hmac settings (c.map fun x => cursorEncode hmac settings.cursorSecret x.1) =
      .ok (c.map fun x => (x.1.createdAt, x.1.id)) := by
  cases c with
  | none => rfl
  | some x =>
    have hx := hc x rfl
    have hg : given (some (cursorEncode hmac settings.cursorSecret x.1)) = some (cursorEncode hmac settings.cursorSecret x.1) := by
      simp [given, cursorEncode_ne_nil hx.1 hx.2.1]
    rw [Option.map_some, beforeOf, hg]
    dsimp only
    rw [cursorDecode_cursorEncode hx.1 hx.2.1]
    rfl

theorem beforeOf_encode (hst : db.Stamped backend) {c : Option (Incident × PyStr)}
    (hc : ∀ x ∈ c, x ∈ matching db serviceKey state) :
    beforeOf hmac settings (c.map fun x => cursorEncode hmac settings.cursorSecret x.1) =
      .ok (c.map fun x => (x.1.createdAt, x.1.id)) :=
  beforeOf_stamped fun x hx => stamped_of_mem hst (mem_of_matching (hc x hx))

/-- **`list_incidents` is paging through the ordered rows.** -/
theorem listIncidents_simulates (hl : 1 ≤ limit ∧ limit ≤ 100)
    (hs : (backend.sends serviceKey && backend.sends state) = true) (hst : db.Stamped backend) :
    Simulates (page Exn (ordered backend db serviceKey state) (afterRow backend) limit.toNat)
      (fun c => listIncidents hmac settings backend db serviceKey state c limit)
      (fun c => ∀ x ∈ c, x ∈ matching db serviceKey state)
      (fun x => cursorEncode hmac settings.cursorSecret x.1) incidentSummary := by
  intro c hc
  refine ⟨_, _, rfl, ?_, ?_⟩
  · intro x hx
    split_ifs at hx
    · have hm := List.mem_of_mem_take (List.mem_of_getElem? hx)
      have ho : x ∈ ordered backend db serviceKey state := by
        cases c with
        | none => exact hm
        | some y => exact List.mem_of_mem_filter hm
      exact mem_ordered.mp ho
    · cases hx
  · show listIncidents _ _ _ _ _ _ _ _ = _
    rw [listIncidents, if_pos hl, beforeOf_encode hst hc]
    show (IncidentRepository.listRows _ _ _ _ _ _ >>= _) = _
    rw [listRows_eq hs hst hc]
    show Except.ok _ = _
    split_ifs <;> rfl

/-! ## Completeness -/

/-- Following the cursors from the start ends with the given rows, each once, the newest first. -/
def Lists (fetch : Option PyStr → Except Exn (List IncidentSummary × Option PyStr))
    (rows : List (Incident × PyStr)) : Prop :=
  ∃ listed : List (Incident × PyStr), Follows fetch none (listed.map incidentSummary) ∧ listed.Perm rows ∧
    listed.Pairwise fun x y => x.1.Newer y.1

theorem lists_of_follows (hl : 1 ≤ limit ∧ limit ≤ 100)
    (hs : (backend.sends serviceKey && backend.sends state) = true) (hst : db.Stamped backend)
    (h : Follows (page Exn (ordered backend db serviceKey state) (afterRow backend) limit.toNat) none
      (ordered backend db serviceKey state)) :
    Lists (fun c => listIncidents hmac settings backend db serviceKey state c limit)
      (matching db serviceKey state) :=
  ⟨_, (listIncidents_simulates hl hs hst).follows (c := none) nofun h, ordered_perm, ordered_newer hst⟩

theorem lists_postgresql (hl : 1 ≤ limit ∧ limit ≤ 100)
    (hs : (Backend.postgresql.sends serviceKey && Backend.postgresql.sends state) = true)
    (hst : db.Stamped .postgresql) :
    Lists (fun c => listIncidents hmac settings .postgresql db serviceKey state c limit)
      (matching db serviceKey state) := by
  refine lists_of_follows hl hs hst (follows_page (by omega) fun l₁ x l₂ h => ?_)
  rw [show afterRow .postgresql x = _ from funext (afterRow_postgresql x)]
  exact filter_key_lt ordered_strict h

/-- One page holds everything. -/
theorem lists_one_page (hl : 1 ≤ limit ∧ limit ≤ 100)
    (hs : (backend.sends serviceKey && backend.sends state) = true) (hst : db.Stamped backend)
    (hfew : (matching db serviceKey state).length ≤ limit.toNat) :
    Lists (fun c => listIncidents hmac settings backend db serviceKey state c limit)
      (matching db serviceKey state) := by
  refine lists_of_follows hl hs hst (.last (page_last Exn ?_))
  show (ordered backend db serviceKey state).length ≤ _
  rwa [ordered_perm.length_eq]

theorem not_lists_sqlite (hl : 1 ≤ limit ∧ limit ≤ 100)
    (hs : (Backend.sqlite.sends serviceKey && Backend.sqlite.sends state) = true) (hst : db.Stamped .sqlite)
    (hmany : limit.toNat < (matching db serviceKey state).length) :
    ¬ Lists (fun c => listIncidents hmac settings .sqlite db serviceKey state c limit)
      (matching db serviceKey state) := by
  rintro ⟨listed, hf, hp, -⟩
  obtain ⟨xs, hxs, he⟩ := (listIncidents_simulates hl hs hst).of_follows (c := none) nofun hf
  have hlong : limit.toNat < (ordered .sqlite db serviceKey state).length := by rwa [ordered_perm.length_eq]
  refine not_nodup_of_follows (by omega) hlong (fun x _ => afterRow_sqlite x) hxs ?_
  -- the ids listed are those of different rows
  have hids : xs.map (fun x => x.1.id) = listed.map fun x => x.1.id := by
    have := congrArg (List.map IncidentSummary.id) he
    rw [List.map_map, List.map_map] at this
    exact this.symm
  have hnd : (listed.map fun x => x.1.id).Nodup := by
    refine List.Nodup.map_on ?_ (hp.nodup_iff.mpr matching_nodup)
    intro x hx y hy h
    exact joined_inj (mem_of_matching (hp.subset hx)) (mem_of_matching (hp.subset hy)) h
  rw [← hids] at hnd
  exact hnd.of_map

/-- A filter the driver cannot send fails the first page. -/
theorem not_lists_unsent (hs : ¬ (backend.sends serviceKey && backend.sends state) = true)
    (rows : List (Incident × PyStr)) :
    ¬ Lists (fun c => listIncidents hmac settings backend db serviceKey state c limit) rows := by
  have hfail : ∀ items next, listIncidents hmac settings backend db serviceKey state none limit ≠ .ok (items, next) := by
    intro items next h
    rw [listIncidents] at h
    split_ifs at h
    obtain ⟨before, -, h⟩ := bind_eq_ok.mp h
    obtain ⟨rows', hr, -⟩ := bind_eq_ok.mp h
    rw [IncidentRepository.listRows, if_neg hs] at hr
    cases hr
  rintro ⟨listed, hf, -⟩
  generalize listed.map incidentSummary = ys at hf
  cases hf with
  | last h => exact hfail _ _ h
  | next h _ => exact hfail _ _ h

/-- **The listing is complete iff** the filters can be sent and the backend is PostgreSQL or one page holds
everything. -/
theorem listIncidents_complete (hl : 1 ≤ limit ∧ limit ≤ 100) (hst : db.Stamped backend) :
    Lists (fun c => listIncidents hmac settings backend db serviceKey state c limit)
        (matching db serviceKey state) ↔
      (backend.sends serviceKey = true ∧ backend.sends state = true) ∧
        (backend = .postgresql ∨ (matching db serviceKey state).length ≤ limit.toNat) := by
  rw [← Bool.and_eq_true]
  constructor
  · intro h
    have hs : (backend.sends serviceKey && backend.sends state) = true :=
      not_not.mp fun hs => not_lists_unsent hs _ h
    refine ⟨hs, ?_⟩
    cases backend with
    | postgresql => exact Or.inl rfl
    | sqlite => exact Or.inr (Nat.not_lt.mp fun hmany => not_lists_sqlite hl hs hst hmany h)
  · rintro ⟨hs, rfl | hfew⟩
    · exact lists_postgresql hl hs hst
    · exact lists_one_page hl hs hst hfew

end Simulation

/-! Two incidents of one second, listed one by one. -/

namespace Pages

def incident (id : Uuid) : Incident :=
  { id := id, serviceId := 1, fingerprint := lit "f", repositoryPathSnapshot := lit "api", baseCommitSha := Sample.sha,
    firstErrorEventId := id, createdAt := ⟨2026, 1, 1, 12, 0, 0, 0, some 0⟩ }

def db : Store := { Sample.start.db with incidents := ⟨[incident 2, incident 3], by decide⟩ }

theorem stamped (backend : Backend) : db.Stamped backend := by
  intro i hi
  have h : i = incident 2 ∨ i = incident 3 := by simpa [db] using hi
  rcases h with rfl | rfl <;> exact ⟨by decide, rfl, fun _ => rfl⟩

/-- The signature of the one cursor there is, that of incident 3. -/
def hmac (_secret : PyStr) (_data : Bytes) : Bytes :=
  [0x0b, 0xbe, 0x92, 0x13, 0x7b, 0xe6, 0xdc, 0x26, 0x96, 0xf9, 0x8d, 0x89, 0xc6, 0xdf, 0x2b, 0x5e,
    0x74, 0x73, 0xfe, 0xc2, 0x9e, 0x98, 0x18, 0xba, 0xd6, 0x28, 0x8b, 0x0f, 0xe5, 0x7a, 0x9f, 0x73]

theorem listIncidents_complete_sample : Lists
    (fun c => listIncidents hmac Sample.settings .sqlite db none none c 1) (matching db none none) ↔
      (Backend.sqlite.sends none = true ∧ Backend.sqlite.sends none = true) ∧
        (Backend.sqlite = .postgresql ∨ (matching db none none).length ≤ (1 : ℤ).toNat) :=
  listIncidents_complete (by decide) (stamped .sqlite)

/-- **On SQLite this listing is not complete with a limit of one.** -/
theorem listIncidents_incomplete :
    ¬ Lists (fun c => listIncidents hmac Sample.settings .sqlite db none none c 1) (matching db none none) :=
  not_lists_sqlite (by decide) rfl (stamped .sqlite) (by decide)

end Pages

end Aeh
