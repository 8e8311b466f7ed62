import Aeh.Gitops
import Aeh.Grouping

/-!
# BaseCommit — the commit an event's incident is based on

`resolve_commit` hands the digits of an event to Git as a name.  A name is looked up among the refs before it is read
as an abbreviated id, and a tag object leads on to its commit, while only the shape of the answer is checked.  So the
base commit begins with the digits exactly where neither a ref nor a tag object diverts them (`base_commit`).
-/

namespace Aeh

/-! ## What names lead to -/

/-- An object: an annotated tag has the commit it leads to, if it leads to one. -/
inductive GitObject where
  | commit
  | tag (commit : Option PyStr)
  | other

/-- A repository as `git rev-parse` reads it: its objects, by their ids, its refs, by their full names, and what the
outputs of `git describe` stand for. -/
structure GitRepository where
  idLength : ℕ
  objects : List (PyStr × GitObject)
  ref : PyStr → Option PyStr
  described : PyStr → Option PyStr
  idLength_eq : idLength = 40 ∨ idLength = 64
  id_shape : ∀ o ∈ objects, o.1.length = idLength ∧ o.1.all isLowerHex = true
  tag_commit : ∀ o ∈ objects, ∀ c, o.2 = .tag (some c) → (c, GitObject.commit) ∈ objects
  described_hex : ∀ name, name.all isHex = true → described name = none

/-- The refs a name may stand for, in the order in which they are tried. -/
def refRules (name : PyStr) : List PyStr :=
  [name, lit "refs/" ++ name, lit "refs/tags/" ++ name, lit "refs/heads/" ++ name, lit "refs/remotes/" ++ name,
    lit "refs/remotes/" ++ name ++ lit "/HEAD"]

/-- `X^{commit}`. -/
def commitSuffix : PyStr := lit "^\x7bcommit\x7d"

namespace GitRepository

variable (repo : GitRepository)

def object (id : PyStr) : Option GitObject := (repo.objects.find? fun o => o.1 = id).map Prod.snd

/-- The commit an object leads to. -/
def peel (id : PyStr) : Option PyStr :=
  match repo.object id with
  | some .commit => some id
  | some (.tag commit) => commit
  | _ => none

/-- The ref of a name. -/
def dwim (name : PyStr) : Option PyStr := (refRules name).findSome? repo.ref

/-- The ids that begin with the digits. -/
def idsOf (digits : PyStr) : List PyStr :=
  (repo.objects.map Prod.fst).filter fun id => startsWith id (digits.map foldCase)

/-- The one object, or the one that leads to a commit, whose id begins with the digits. -/
def abbreviated (name : PyStr) : Option PyStr :=
  if name.all isHex ∧ 4 ≤ name.length then
    match repo.idsOf name, (repo.idsOf name).filter fun id => (repo.peel id).isSome with
    | [id], _ => some id
    | _, [id] => some id
    | _, _ => none
  else none

/-- The object a name stands for: digits of full length are an id, whatever refs there are. -/
def named (name : PyStr) : Option PyStr :=
  if name.all isHex ∧ name.length = repo.idLength then some (name.map foldCase)
  else (repo.dwim name).or ((repo.described name).or (repo.abbreviated name))

/-- What `git rev-parse --verify name^{commit}` prints. -/
def commitOf (name : PyStr) : Option PyStr := (repo.named name).bind repo.peel

/-! ### Ids -/

variable {repo} {id c name : PyStr}

theorem mem_of_object {o : GitObject} (h : repo.object id = some o) : (id, o) ∈ repo.objects := by
  obtain ⟨p, hp, rfl⟩ := Option.map_eq_some_iff.mp h
  have hid : p.1 = id := by simpa using List.find?_some hp
  rw [← hid]
  exact List.mem_of_find?_eq_some hp

/-- A commit is peeled to itself, a tag to its commit. -/
theorem peel_eq_some (h : repo.peel id = some c) :
    (repo.object id = some .commit ∧ c = id) ∨ repo.object id = some (.tag (some c)) := by
  unfold peel at h
  split at h
  · rename_i ho
    exact Or.inl ⟨ho, (Option.some.inj h).symm⟩
  · rename_i ho
    rw [ho, h]
    exact Or.inr rfl
  · cases h

theorem peel_shape (h : repo.peel id = some c) : c.length = repo.idLength ∧ c.all isLowerHex = true := by
  rcases peel_eq_some h with ⟨ho, rfl⟩ | ho
  · exact repo.id_shape _ (mem_of_object ho)
  · exact repo.id_shape _ (repo.tag_commit _ (mem_of_object ho) c rfl)

theorem abbreviated_eq_some (h : repo.abbreviated name = some id) : startsWith id (name.map foldCase) = true := by
  have hmem : id ∈ repo.idsOf name := by
    unfold abbreviated at h
    split_ifs at h
    split at h
    · rename_i hl
      cases h
      rw [hl]
      exact List.mem_singleton_self id
    · rename_i hl _
      cases h
      exact (List.mem_filter.mp (hl ▸ List.mem_singleton_self id)).1
    · cases h
  exact (List.mem_filter.mp hmem).2

/-- Hexadecimal digits are an id or its beginning unless a ref has them for its name. -/
theorem named_hex (hx : name.all isHex = true) (h : repo.named name = some id)
    (hr : name.length = repo.idLength ∨ repo.dwim name = none) : startsWith id (name.map foldCase) = true := by
  unfold named at h
  split_ifs at h with hfull
  · cases h
    exact List.isPrefixOf_iff_prefix.mpr (List.prefix_refl _)
  · rcases hr with hlen | hnone
    · exact absurd ⟨hx, hlen⟩ hfull
    · rw [hnone, repo.described_hex name hx, Option.none_or, Option.none_or] at h
      exact abbreviated_eq_some h

theorem named_ref {digits : PyStr} (hlen : digits.length ≠ repo.idLength) (h : repo.dwim digits = some id) :
    repo.named digits = some id := by
  unfold named
  rw [if_neg fun hfull => hlen hfull.2, h, Option.some_or]

/-! ### What keeps digits from being an id -/

variable (repo)

/-- A ref has the digits for its name and leads to another commit. -/
def RefDiverts (digits : PyStr) : Prop :=
  digits.length ≠ repo.idLength ∧ ∃ id c, repo.dwim digits = some id ∧ repo.peel id = some c ∧
    ¬ startsWith c (digits.map foldCase) = true

/-- The digits are the id of a tag object, or its beginning, and the tag leads to another commit. -/
def TagDiverts (digits : PyStr) : Prop :=
  (digits.length = repo.idLength ∨ repo.dwim digits = none) ∧ ∃ id c, repo.named digits = some id ∧
    startsWith id (digits.map foldCase) = true ∧ repo.object id = some (.tag (some c)) ∧
      ¬ startsWith c (digits.map foldCase) = true

variable {repo}

/-- **The commit digits lead to has an id that begins with them** iff no ref and no tag diverts them. -/
theorem commitOf_startsWith {digits : PyStr} (hx : digits.all isHex = true) (h : repo.commitOf digits = some c) :
    startsWith c (digits.map foldCase) = true ↔ ¬ repo.RefDiverts digits ∧ ¬ repo.TagDiverts digits := by
  obtain ⟨id, hid, hc⟩ := Option.bind_eq_some_iff.mp h
  constructor
  · intro hs
    constructor
    · rintro ⟨hlen, id', c', hd, hp, hn⟩
      obtain rfl := Option.some.inj ((named_ref hlen hd).symm.trans hid)
      obtain rfl := Option.some.inj (hp.symm.trans hc)
      exact hn hs
    · rintro ⟨-, id', c', hd, -, ho, hn⟩
      obtain rfl := Option.some.inj (hd.symm.trans hid)
      rcases peel_eq_some hc with ⟨ho', -⟩ | ho'
      · rw [ho] at ho'
        cases ho'
      · rw [ho] at ho'
        cases ho'
        exact hn hs
  · rintro ⟨href, htag⟩
    by_contra hn
    by_cases hr : digits.length = repo.idLength ∨ repo.dwim digits = none
    · have hs := named_hex hx hid hr
      rcases peel_eq_some hc with ⟨-, rfl⟩ | ho
      · exact hn hs
      · exact htag ⟨hr, id, c, hid, hs, ho, hn⟩
    · push Not at hr
      obtain ⟨hlen, hd⟩ := hr
      obtain ⟨id', hd⟩ := Option.ne_none_iff_exists'.mp hd
      obtain rfl := Option.some.inj ((named_ref hlen hd).symm.trans hid)
      exact href ⟨hlen, id', c, hd, hc, hn⟩

end GitRepository

/-! ## `resolve_commit` in a repository -/

/-- Git answers from the repository. -/
structure GitHost.Serves (host : GitHost) (path : AbsPath) (repo : GitRepository) : Prop where
  verify : ∀ name, host.run path (verifyArgs (name ++ commitSuffix)) =
    match repo.commitOf name with
    | some id => .exited 0 (Utf8.encode (id ++ [cp '\n']))
    | none => .exited 128 []

/-- The name `resolve_commit` asks for. -/
def askedName (given : Option PyStr) (branch : PyStr) : PyStr := given.getD (lit "refs/heads/" ++ branch)

theorem commitRef_ok {given : Option PyStr} {branch ref : PyStr} (h : commitRef given branch = .ok ref) :
    ref = askedName given branch ++ commitSuffix ∧ ∀ digits, given = some digits → digits.all isHex = true := by
  unfold commitRef at h
  cases given with
  | some digits =>
    simp only at h
    split_ifs at h with hno
    cases h
    refine ⟨rfl, fun digits' hd => ?_⟩
    cases hd
    exact hno.1
  | none =>
    simp only at h
    split_ifs at h
    cases h
    exact ⟨rfl, nofun⟩

theorem isLowerHex_val {c : CodePoint} (h : isLowerHex c = true) : 0x30 ≤ c.val ∧ c.val ≤ 0x66 := by
  have ha : (cp 'a').val = 0x61 := rfl
  have hf : (cp 'f').val = 0x66 := rfl
  simp only [isLowerHex, isDigit, Bool.or_eq_true, Bool.and_eq_true, decide_eq_true_eq, ha, hf] at h
  omega

theorem dropWhile_line {α : Type} {p : α → Bool} {s : List α} (hne : s ≠ []) (h : ∀ c ∈ s, p c = false) (t : List α) :
    (s ++ t).dropWhile p = s ++ t := by
  obtain ⟨c, s, rfl⟩ := List.exists_cons_of_ne_nil hne
  rw [List.cons_append, List.dropWhile_cons_of_neg]
  rw [h c List.mem_cons_self]
  exact Bool.false_ne_true

/-- A line with an id. -/
theorem strip_line {id : PyStr} (hne : id ≠ []) (h : id.all isLowerHex = true) : strip (id ++ [cp '\n']) = id := by
  have hspace : ∀ c ∈ id, isSpace c = false := by
    intro c hc
    have hx := isLowerHex_val (List.all_eq_true.mp h c hc)
    simp only [isSpace, Bool.or_eq_false_iff, Bool.and_eq_false_iff, decide_eq_false_iff_not, beq_eq_false_iff_ne]
    omega
  have hrev : ∀ c ∈ id.reverse, isSpace c = false := fun c hc => hspace c (List.mem_reverse.mp hc)
  have hne' : id.reverse ≠ [] := fun he => hne (List.reverse_eq_nil_iff.mp he)
  have hlast := dropWhile_line hne' hrev []
  rw [List.append_nil] at hlast
  unfold strip
  rw [dropWhile_line hne hspace, List.reverse_append, List.reverse_singleton, List.singleton_append,
    List.dropWhile_cons_of_pos (by decide), hlast, List.reverse_reverse]

/-- **What `resolve_commit` answers** is the commit the name leads to, an id. -/
theorem GitHost.Serves.resolveCommit {host : GitHost} {path : AbsPath} {repo : GitRepository} {given : Option PyStr}
    {branch sha : PyStr} (hs : host.Serves path repo) (h : host.resolveCommit path given branch = .ok sha) :
    repo.commitOf (askedName given branch) = some sha ∧ (sha.length = 40 ∨ sha.length = 64) ∧
      sha.all isLowerHex = true ∧ ∀ digits, given = some digits → digits.all isHex = true := by
  obtain ⟨top, -, h⟩ := bind_eq_ok.mp h
  split_ifs at h
  obtain ⟨ref, href, h⟩ := bind_eq_ok.mp h
  obtain ⟨rfl, hhex⟩ := commitRef_ok href
  obtain ⟨stdout, hgit, h⟩ := bind_eq_ok.mp h
  unfold GitHost.git at hgit
  rw [hs.verify] at hgit
  cases hc : repo.commitOf (askedName given branch) with
  | none =>
    rw [hc] at hgit
    cases hgit
  | some id =>
    rw [hc] at hgit
    obtain rfl : Utf8.encode (id ++ [cp '\n']) = stdout := Except.ok.inj hgit
    obtain ⟨id', hid', hpeel⟩ := Option.bind_eq_some_iff.mp hc
    obtain ⟨hlen, hlow⟩ := GitRepository.peel_shape hpeel
    have hlen' : id.length = 40 ∨ id.length = 64 := by rw [hlen]; exact repo.idLength_eq
    have hascii : ∀ c ∈ id ++ [cp '\n'], c.val < 0x80 := by
      intro c hc
      rcases List.mem_append.mp hc with hc | hc
      · have := isLowerHex_val (List.all_eq_true.mp hlow c hc)
        omega
      · obtain rfl := List.mem_singleton.mp hc
        decide
    have hne : id ≠ [] := by
      rintro rfl
      simp at hlen'
    have hdec : decodeText (Utf8.encode (id ++ [cp '\n'])) = .ok (id ++ [cp '\n']) := by
      rw [decodeText, Utf8.decode_encode_ascii hascii]
    rw [hdec] at h
    simp only [bind, Except.bind, strip_line hne hlow] at h
    split_ifs at h
    cases h
    exact ⟨rfl, hlen', hlow, hhex⟩

/-! ## The incident of a new event -/

/-- The incident an event is attached to has the commit of the event. -/
theorem ingestResolved_base {db db' : Store} {env : Env} {request : EventRequest} {intake : Intake} {sha : PyStr}
    {r : Receipt} (h : ingestResolved env request intake sha db = .ok (r, db')) (hnew : r.duplicate = false) :
    ∃ inc, db'.incidents.get r.incidentId = some inc ∧ inc.baseCommitSha = sha := by
  obtain ⟨service, -, -, ⟨hd, -⟩ | ⟨-, -, fp, inc, occurredAt, db₁, db₂, -, -, h₁, h₂, h₃, rfl⟩⟩ := ingestResolved_ok h
  · obtain ⟨row, inc, -, -, -, rfl⟩ := duplicate_some hd
    cases hnew
  obtain ⟨t₀, -, rfl⟩ := Store.addErrorEvent_ok h₁
  obtain ⟨t, -, rfl⟩ := Store.addOccurrence_ok h₃
  rcases joinIncident_ok h₂ with ⟨joined, ho, rfl, hu⟩ | ⟨-, rfl, db₃, ha, hj⟩
  · obtain ⟨hm, -, -, hsha, -⟩ := openIncident_some ho
    have hget : db.incidents.get (Keyed.key joined.counted) = some joined := Table.get_self hm
    rw [Store.updateIncident_ok hu]
    exact ⟨_, Table.get_put_self hget, hsha⟩
  · obtain ⟨t₁, ht₁, rfl⟩ := Store.addIncident_ok ha
    obtain ⟨t₂, -, rfl⟩ := Store.addJob_ok hj
    exact ⟨_, Table.get_insert_self ht₁, rfl⟩

/-- The commit is what the event asks for: its id is a full one that begins with the given digits, in either case of
letters; without digits it is the commit of the default branch. -/
def GitRepository.AsAsked (repo : GitRepository) (given : Option PyStr) (branch base : PyStr) : Prop :=
  (base.length = 40 ∨ base.length = 64) ∧ base.all isLowerHex = true ∧
    match given with
    | some digits => startsWith base (digits.map foldCase) = true
    | none => ∃ id, repo.ref (lit "refs/heads/" ++ branch) = some id ∧ repo.peel id = some base

/-- Nothing comes between the digits and their commit; without digits the default branch exists. -/
def GitRepository.Direct (repo : GitRepository) (given : Option PyStr) (branch : PyStr) : Prop :=
  match given with
  | some digits => ¬ repo.RefDiverts digits ∧ ¬ repo.TagDiverts digits
  | none => (repo.ref (lit "refs/heads/" ++ branch)).isSome = true

/-- The full name of a branch stands for the branch, if there is one. -/
theorem GitRepository.named_branch {repo : GitRepository} {branch id : PyStr}
    (h : repo.ref (lit "refs/heads/" ++ branch) = some id) : repo.named (lit "refs/heads/" ++ branch) = some id := by
  have hx : ¬ (lit "refs/heads/" ++ branch).all isHex = true := by
    rw [List.all_append, Bool.and_eq_true]
    exact fun hall => absurd hall.1 (by decide)
  unfold named
  rw [if_neg fun hfull => hx hfull.1, dwim, refRules, List.findSome?_cons, h, Option.some_or]

section Event

variable {settings : Settings} {fs : FileSystem} {host : GitHost} {repo : GitRepository} {path : AbsPath}
  {db db' : Store} {env : Env} {request : EventRequest} {intake : Intake} {given : Option PyStr} {sha : PyStr}
  {r : Receipt}

/-- **The base commit of an accepted event** is what the event asks for iff nothing diverts the digits, or, without
digits, the default branch exists. -/
theorem base_commit (hs : host.Serves path repo)
    (hpath : settings.resolveRepositoryReference fs intake.repoPath = .ok path)
    (hgiven : commitShaOf request.event = .ok given)
    (hres : ingestResolve settings fs host.resolveCommit request intake = .ok sha)
    (h : ingestResolved env request intake sha db = .ok (r, db')) (hnew : r.duplicate = false) :
    (∃ inc, db'.incidents.get r.incidentId = some inc ∧ repo.AsAsked given intake.branch inc.baseCommitSha) ↔
      repo.Direct given intake.branch := by
  unfold ingestResolve at hres
  rw [hpath] at hres
  simp only [hgiven, bind, Except.bind] at hres
  obtain ⟨hc, hlen, hlow, hhex⟩ := hs.resolveCommit hres
  obtain ⟨inc, hget, rfl⟩ := ingestResolved_base h hnew
  have hone : (∃ inc', db'.incidents.get r.incidentId = some inc' ∧
      repo.AsAsked given intake.branch inc'.baseCommitSha) ↔ repo.AsAsked given intake.branch inc.baseCommitSha := by
    rw [hget]
    simp
  rw [hone]
  cases given with
  | some digits =>
    have hbegins := GitRepository.commitOf_startsWith (hhex digits rfl) hc
    constructor
    · intro hasked
      exact hbegins.mp hasked.2.2
    · intro hdirect
      exact ⟨hlen, hlow, hbegins.mpr hdirect⟩
  | none =>
    constructor
    · rintro ⟨-, -, id, hid, -⟩
      show (repo.ref _).isSome = true
      rw [hid]
      rfl
    · intro hdirect
      obtain ⟨id, hid⟩ := Option.isSome_iff_exists.mp hdirect
      refine ⟨hlen, hlow, id, hid, ?_⟩
      have hn := GitRepository.named_branch hid
      rwa [GitRepository.commitOf, askedName, Option.getD_none, hn] at hc

end Event

/-! ### A branch with the digits of a commit -/

namespace DigitBranch

open Sample

def shaA : PyStr := lit "abcdef0123456789abcdef0123456789abcdef01"

def shaB : PyStr := lit "b000000000000000000000000000000000000000"

/-- Two commits; a branch at the second has the first digits of the first for its name. -/
def repo : GitRepository :=
  { idLength := 40
    objects := [(shaA, .commit), (shaB, .commit)]
    ref := fun name => if name = lit "refs/heads/main" then some shaA
      else if name = lit "refs/heads/abcdef0" then some shaB else none
    described := fun _ => none
    idLength_eq := Or.inl rfl
    id_shape := by decide +kernel
    tag_commit := by
      intro o ho c hc
      simp only [List.mem_cons, List.not_mem_nil, or_false] at ho
      rcases ho with rfl | rfl <;> cases hc
    described_hex := fun _ _ => rfl }

/-- Git in this repository. -/
def host : GitHost :=
  { run := fun _ args =>
      if args = topArgs then .exited 0 []
      else match repo.commitOf ((args.getLastD []).take ((args.getLastD []).length - commitSuffix.length)) with
        | some id => .exited 0 (Utf8.encode (id ++ [cp '\n']))
        | none => .exited 128 []
    resolvePath := fun _ => [lit "/repositories", lit "api"]
    resolveAgain := id }

theorem host_serves (path : AbsPath) : host.Serves path repo := by
  refine ⟨fun name => ?_⟩
  have hlast : (verifyArgs (name ++ commitSuffix)).getLastD [] = name ++ commitSuffix := rfl
  have htake : (name ++ commitSuffix).take ((name ++ commitSuffix).length - commitSuffix.length) = name := by
    rw [List.length_append, Nat.add_sub_cancel, List.take_left]
  unfold host
  simp only [hlast, htake, if_neg (verifyArgs_ne_topArgs _)]

/-- An event with these digits. -/
def asking (digits : String) : EventRequest :=
  { request with event := .obj [(lit "occurredAt", .str (lit "2026-01-01T00:00:00Z")),
      (lit "release", .obj [(lit "commitSha", .str (lit digits))])] }

theorem ingestResolve_diverted : ingestResolve settings fs host.resolveCommit (asking "abcdef0") intake = .ok shaB := by
  decide +kernel

theorem ingestResolve_direct : ingestResolve settings fs host.resolveCommit (asking "ABCDEF01") intake = .ok shaA := by
  decide +kernel

/-- **The digits of one commit are accepted as another one.** -/
theorem base_commit_substituted : ∃ r db' inc,
    ingestResolve settings fs host.resolveCommit (asking "abcdef0") intake = .ok shaB ∧
      ingestResolved (env 1) (asking "abcdef0") intake shaB start.db = .ok (r, db') ∧ r.duplicate = false ∧
      db'.incidents.get r.incidentId = some inc ∧ inc.baseCommitSha = shaB ∧
      ¬ repo.AsAsked (some (lit "abcdef0")) intake.branch inc.baseCommitSha ∧
      startsWith shaA (lit "abcdef0") = true ∧ repo.object shaA = some .commit := by
  refine ⟨_, _, _, ingestResolve_diverted, rfl, rfl, rfl, rfl, ?_, by decide, rfl⟩
  rintro ⟨-, -, hs⟩
  exact absurd hs (by decide)

/-- Eight digits are no branch's name. -/
theorem base_commit_sample : ∃ r db', ingestResolved (env 1) (asking "ABCDEF01") intake shaA start.db = .ok (r, db') ∧
    ∃ inc, db'.incidents.get r.incidentId = some inc ∧
      repo.AsAsked (some (lit "ABCDEF01")) intake.branch inc.baseCommitSha := by
  obtain ⟨r, db', h, hnew⟩ : ∃ r db',
      ingestResolved (env 1) (asking "ABCDEF01") intake shaA start.db = .ok (r, db') ∧ r.duplicate = false :=
    ⟨_, _, rfl, rfl⟩
  refine ⟨r, db', h, (base_commit (host_serves _) rfl rfl ingestResolve_direct h hnew).mpr ⟨?_, ?_⟩⟩
  · rintro ⟨-, id, c, hd, -⟩
    have hnone : repo.dwim (lit "ABCDEF01") = none := by decide +kernel
    rw [hnone] at hd
    cases hd
  · rintro ⟨-, id, c, -, -, ho, -⟩
    have hm := GitRepository.mem_of_object ho
    simp [repo] at hm

end DigitBranch

end Aeh
