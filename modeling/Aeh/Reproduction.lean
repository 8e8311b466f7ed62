import Aeh.Redaction

/-!
# Reproduction — what `check_reproduction_data` accepts

`visit` walks a document with one counter for all of its values; `visit_ok` says what it has checked when it
returns, node by node.  The limit of a string is not the documented one: `scrub` cuts at 2048 characters, so a
longer string differs from its scrubbed form whatever it says.  What is accepted is stored as it came.
-/

namespace Aeh

open Json

namespace Json

/-! ## Depth and size of a document -/

/-- `j.At d v`: the value `v` lies at depth `d` in `j`. -/
inductive At (j : Json) : ℕ → Json → Prop
  | self : At j 0 j
  | item {d : ℕ} {items : List Json} {v : Json} : At j d (.arr items) → v ∈ items → At j (d + 1) v
  | field {d : ℕ} {fields : List (PyStr × Json)} {key : PyStr} {v : Json} :
      At j d (.obj fields) → (key, v) ∈ fields → At j (d + 1) v

mutual

/-- The number of JSON values in a document. -/
def values : Json → ℕ
  | .obj fields => 1 + valuesOfFields fields
  | .arr items => 1 + valuesOfItems items
  | _ => 1

def valuesOfItems : List Json → ℕ
  | [] => 0
  | item :: items => item.values + valuesOfItems items

def valuesOfFields : List (PyStr × Json) → ℕ
  | [] => 0
  | (_, item) :: fields => item.values + valuesOfFields fields

end

theorem within_iff_at {j v : Json} : Within j v ↔ ∃ d, j.At d v := by
  constructor
  · intro h
    induction h with
    | self => exact ⟨0, .self⟩
    | item _ hv ih =>
      obtain ⟨d, hd⟩ := ih
      exact ⟨d + 1, hd.item hv⟩
    | field _ hv ih =>
      obtain ⟨d, hd⟩ := ih
      exact ⟨d + 1, hd.field hv⟩
  · rintro ⟨d, h⟩
    induction h with
    | self => exact .self
    | item _ hv ih => exact ih.item hv
    | field _ hv ih => exact ih.field hv

/-- A value without parts is all there is in it. -/
def IsScalar : Json → Prop
  | .obj _ | .arr _ => False
  | _ => True

theorem at_scalar {j v : Json} {d : ℕ} (hj : j.IsScalar) : j.At d v ↔ d = 0 ∧ v = j := by
  constructor
  · intro h
    induction h with
    | self => exact ⟨rfl, rfl⟩
    | item _ _ ih =>
      obtain ⟨-, rfl⟩ := ih
      exact hj.elim
    | field _ _ ih =>
      obtain ⟨-, rfl⟩ := ih
      exact hj.elim
  · rintro ⟨rfl, rfl⟩
    exact .self

theorem at_arr {items : List Json} {v : Json} {d : ℕ} : (Json.arr items).At d v ↔
    (d = 0 ∧ v = .arr items) ∨ ∃ item ∈ items, ∃ k, d = k + 1 ∧ item.At k v := by
  constructor
  · intro h
    induction h with
    | self => exact Or.inl ⟨rfl, rfl⟩
    | item _ hv ih =>
      rcases ih with ⟨rfl, h⟩ | ⟨item, hi, k, rfl, h⟩
      · cases h
        exact Or.inr ⟨_, hv, 0, rfl, .self⟩
      · exact Or.inr ⟨item, hi, k + 1, rfl, h.item hv⟩
    | field _ hv ih =>
      rcases ih with ⟨-, h⟩ | ⟨item, hi, k, rfl, h⟩
      · cases h
      · exact Or.inr ⟨item, hi, k + 1, rfl, h.field hv⟩
  · rintro (⟨rfl, rfl⟩ | ⟨item, hi, k, rfl, h⟩)
    · exact .self
    · induction h with
      | self => exact At.self.item hi
      | item _ hv ih => exact ih.item hv
      | field _ hv ih => exact ih.field hv

theorem at_obj {fields : List (PyStr × Json)} {v : Json} {d : ℕ} : (Json.obj fields).At d v ↔
    (d = 0 ∧ v = .obj fields) ∨ ∃ kv ∈ fields, ∃ k, d = k + 1 ∧ kv.2.At k v := by
  constructor
  · intro h
    induction h with
    | self => exact Or.inl ⟨rfl, rfl⟩
    | item _ hv ih =>
      rcases ih with ⟨-, h⟩ | ⟨kv, hi, k, rfl, h⟩
      · cases h
      · exact Or.inr ⟨kv, hi, k + 1, rfl, h.item hv⟩
    | field _ hv ih =>
      rcases ih with ⟨rfl, h⟩ | ⟨kv, hi, k, rfl, h⟩
      · cases h
        exact Or.inr ⟨_, hv, 0, rfl, .self⟩
      · exact Or.inr ⟨kv, hi, k + 1, rfl, h.field hv⟩
  · rintro (⟨rfl, rfl⟩ | ⟨kv, hi, k, rfl, h⟩)
    · exact .self
    · induction h with
      | self => exact @At.field _ _ _ kv.1 _ .self hi
      | item _ hv ih => exact ih.item hv
      | field _ hv ih => exact ih.field hv

end Json

/-! ## What is asked of a document -/

/-- What is asked of reproduction data whose strings may have up to `limit` characters. -/
structure Reproducible (limit : ℕ) (value : Json) : Prop where
  depth : ∀ d v, value.At d v → d ≤ Limits.reproductionDepth
  values : value.values ≤ Limits.reproductionValues
  keys : ∀ fields key v, Within value (.obj fields) → (key, v) ∈ fields → ¬ SENSITIVE_KEY.Occurs key
  strings : ∀ s, Within value (.str s) → s.length ≤ limit ∧ ¬ SECRET.Occurs s

/-- What is asked of one value at depth `d`. -/
structure NodeOk (d : ℕ) (v : Json) : Prop where
  depth : d ≤ Limits.reproductionDepth
  keys : ∀ fields, v = .obj fields → ∀ kv ∈ fields, ¬ SENSITIVE_KEY.Occurs kv.1
  string : ∀ s, v = .str s → s.length ≤ 2048 ∧ ¬ SECRET.Occurs s

theorem reproducible_iff {value : Json} : Reproducible 2048 value ↔
    (∀ d v, value.At d v → NodeOk d v) ∧ value.values ≤ Limits.reproductionValues := by
  constructor
  · intro h
    refine ⟨fun d v hv => ⟨h.depth d v hv, ?_, ?_⟩, h.values⟩
    · rintro fields rfl ⟨key, item⟩ hm
      exact h.keys fields key item (within_iff_at.mpr ⟨d, hv⟩) hm
    · rintro s rfl
      exact h.strings s (within_iff_at.mpr ⟨d, hv⟩)
  · rintro ⟨h, hn⟩
    refine ⟨fun d v hv => (h d v hv).depth, hn, fun fields key item hw hm => ?_, fun s hw => ?_⟩
    · obtain ⟨d, hv⟩ := within_iff_at.mp hw
      exact (h d _ hv).keys fields rfl (key, item) hm
    · obtain ⟨d, hv⟩ := within_iff_at.mp hw
      exact (h d _ hv).string s rfl

/-! ## What `visit` checks -/

theorem checkText_ok {s : PyStr} {count n : ℕ} :
    checkText s count = .ok n ↔ (s.length ≤ 2048 ∧ ¬ SECRET.Occurs s) ∧ n = count := by
  unfold checkText
  rw [← scrub_eq_iff]
  have hl : scrub s 2048 = s → s.length ≤ 2048 := fun h => (scrub_eq_iff.mp h).1
  split_ifs with h
  · simp only [false_iff, not_and]
    intro hs
    have := hl hs
    rcases h with h | h
    · simp only [Limits.reproductionString] at h
      omega
    · exact absurd hs h
  · simp only [not_or, not_not] at h
    simp [h.2, eq_comm]

theorem enter_ok {depth count n : ℕ} : enter depth count = .ok n ↔
    depth ≤ Limits.reproductionDepth ∧ count + 1 ≤ Limits.reproductionValues ∧ n = count + 1 := by
  unfold enter
  split_ifs with h
  · simp only [false_iff]
    omega
  · simp only [Except.ok.injEq]
    omega

theorem nodeOk_plain {j : Json} {depth : ℕ} (hj : j.IsScalar) (ht : ∀ s, j ≠ .str s) :
    NodeOk depth j ↔ depth ≤ Limits.reproductionDepth := by
  refine ⟨fun h => h.depth, fun h => ⟨h, ?_, fun s hs => (ht s hs).elim⟩⟩
  rintro fields rfl
  exact hj.elim

theorem nodeOk_str {s : PyStr} {depth : ℕ} :
    NodeOk depth (.str s) ↔ depth ≤ Limits.reproductionDepth ∧ s.length ≤ 2048 ∧ ¬ SECRET.Occurs s := by
  refine ⟨fun h => ⟨h.depth, h.string s rfl⟩, fun ⟨hd, hs⟩ => ⟨hd, nofun, ?_⟩⟩
  rintro _ ⟨⟩
  exact hs

/-- All values in `j`, which lies at `depth`, pass. -/
def Passes (depth : ℕ) (j : Json) : Prop := ∀ d v, j.At d v → NodeOk (depth + d) v

theorem passes_scalar {j : Json} {depth : ℕ} (hj : j.IsScalar) : Passes depth j ↔ NodeOk depth j := by
  constructor
  · intro h
    exact h 0 j .self
  · intro h d v hv
    obtain ⟨rfl, rfl⟩ := (at_scalar hj).mp hv
    exact h

theorem passes_arr {items : List Json} {depth : ℕ} : Passes depth (.arr items) ↔
    depth ≤ Limits.reproductionDepth ∧ ∀ item ∈ items, Passes (depth + 1) item := by
  constructor
  · refine fun h => ⟨(h 0 _ .self).depth, fun item hi d v hv => ?_⟩
    have := h (d + 1) v (at_arr.mpr (Or.inr ⟨item, hi, d, rfl, hv⟩))
    rwa [show depth + (d + 1) = depth + 1 + d by omega] at this
  · rintro ⟨hd, h⟩ d v hv
    rcases at_arr.mp hv with ⟨rfl, rfl⟩ | ⟨item, hi, k, rfl, hk⟩
    · exact ⟨hd, nofun, nofun⟩
    · rw [show depth + (k + 1) = depth + 1 + k by omega]
      exact h item hi k v hk

theorem passes_obj {fields : List (PyStr × Json)} {depth : ℕ} : Passes depth (.obj fields) ↔
    depth ≤ Limits.reproductionDepth ∧ ∀ kv ∈ fields, ¬ SENSITIVE_KEY.Occurs kv.1 ∧ Passes (depth + 1) kv.2 := by
  constructor
  · refine fun h => ⟨(h 0 _ .self).depth, fun kv hi => ⟨(h 0 _ .self).keys fields rfl kv hi, fun d v hv => ?_⟩⟩
    have := h (d + 1) v (at_obj.mpr (Or.inr ⟨kv, hi, d, rfl, hv⟩))
    rwa [show depth + (d + 1) = depth + 1 + d by omega] at this
  · rintro ⟨hd, h⟩ d v hv
    rcases at_obj.mp hv with ⟨rfl, rfl⟩ | ⟨kv, hi, k, rfl, hk⟩
    · refine ⟨hd, ?_, nofun⟩
      rintro _ ⟨⟩ kv hm
      exact (h kv hm).1
    · rw [show depth + (k + 1) = depth + 1 + k by omega]
      exact (h kv hi).2 k v hk

mutual

/-- `visit` returns exactly if all values pass and the count stays within its limit. -/
theorem visit_ok (j : Json) {depth count n : ℕ} : visit depth count j = .ok n ↔
    Passes depth j ∧ count + j.values ≤ Limits.reproductionValues ∧ n = count + j.values := by
  have plain : ∀ j : Json, j.IsScalar → (∀ s, j ≠ .str s) → (enter depth count = .ok n ↔
      Passes depth j ∧ count + 1 ≤ Limits.reproductionValues ∧ n = count + 1) := by
    intro j hj ht
    rw [passes_scalar hj, nodeOk_plain hj ht, enter_ok]
  match j with
  | .null => exact plain .null trivial nofun
  | .bool b => exact plain (.bool b) trivial nofun
  | .int k => exact plain (.int k) trivial nofun
  | .float bits => exact plain (.float bits) trivial nofun
  | .str s =>
    rw [visit, bind_eq_ok, passes_scalar (j := .str s) trivial, nodeOk_str]
    simp only [enter_ok, checkText_ok, values]
    grind
  | .arr items =>
    rw [visit, bind_eq_ok, passes_arr, values]
    constructor
    · rintro ⟨m, hm, h⟩
      obtain ⟨hd, hle, rfl⟩ := enter_ok.mp hm
      obtain ⟨hps, hle', rfl⟩ := (visitItems_ok items hle).mp h
      exact ⟨⟨hd, hps⟩, by omega, by omega⟩
    · rintro ⟨⟨hd, hps⟩, hle, rfl⟩
      refine ⟨_, enter_ok.mpr ⟨hd, by omega, rfl⟩, ?_⟩
      exact (visitItems_ok items (by omega)).mpr ⟨hps, by omega, by omega⟩
  | .obj fields =>
    rw [visit, bind_eq_ok, passes_obj, values]
    constructor
    · rintro ⟨m, hm, h⟩
      obtain ⟨hd, hle, rfl⟩ := enter_ok.mp hm
      obtain ⟨hps, hle', rfl⟩ := (visitFields_ok fields hle).mp h
      exact ⟨⟨hd, hps⟩, by omega, by omega⟩
    · rintro ⟨⟨hd, hps⟩, hle, rfl⟩
      refine ⟨_, enter_ok.mpr ⟨hd, by omega, rfl⟩, ?_⟩
      exact (visitFields_ok fields (by omega)).mpr ⟨hps, by omega, by omega⟩

theorem visitItems_ok (items : List Json) {depth count n : ℕ} (hc : count ≤ Limits.reproductionValues) :
    visitItems depth count items = .ok n ↔ (∀ item ∈ items, Passes depth item) ∧
      count + valuesOfItems items ≤ Limits.reproductionValues ∧ n = count + valuesOfItems items := by
  match items with
  | [] => simp [visitItems, valuesOfItems, hc, eq_comm]
  | item :: items =>
    rw [visitItems, bind_eq_ok, List.forall_mem_cons, valuesOfItems]
    constructor
    · rintro ⟨m, hm, h⟩
      obtain ⟨hp, hle, rfl⟩ := (visit_ok item).mp hm
      obtain ⟨hps, hle', rfl⟩ := (visitItems_ok items hle).mp h
      exact ⟨⟨hp, hps⟩, by omega, by omega⟩
    · rintro ⟨⟨hp, hps⟩, hle, rfl⟩
      refine ⟨_, (visit_ok item).mpr ⟨hp, by omega, rfl⟩, ?_⟩
      exact (visitItems_ok items (by omega)).mpr ⟨hps, by omega, by omega⟩

theorem visitFields_ok (fields : List (PyStr × Json)) {depth count n : ℕ} (hc : count ≤ Limits.reproductionValues) :
    visitFields depth count fields = .ok n ↔
      (∀ kv ∈ fields, ¬ SENSITIVE_KEY.Occurs kv.1 ∧ Passes depth kv.2) ∧
      count + valuesOfFields fields ≤ Limits.reproductionValues ∧ n = count + valuesOfFields fields := by
  match fields with
  | [] => simp [visitFields, valuesOfFields, hc, eq_comm]
  | (key, child) :: fields =>
    rw [visitFields, List.forall_mem_cons, valuesOfFields, ← Re.search_iff]
    split_ifs with hk
    · simp [hk]
    · rw [bind_eq_ok]
      constructor
      · rintro ⟨m, hm, h⟩
        obtain ⟨hp, hle, rfl⟩ := (visit_ok child).mp hm
        obtain ⟨hps, hle', rfl⟩ := (visitFields_ok fields hle).mp h
        exact ⟨⟨⟨hk, hp⟩, hps⟩, by omega, by omega⟩
      · rintro ⟨⟨⟨-, hp⟩, hps⟩, hle, rfl⟩
        refine ⟨_, (visit_ok child).mpr ⟨hp, by omega, rfl⟩, ?_⟩
        exact (visitFields_ok fields (by omega)).mpr ⟨hps, by omega, by omega⟩

end

/-- `check_reproduction_data` returns exactly if the data is as asked with strings of at most 2048 characters. -/
theorem checkReproductionData_ok {value : Json} :
    checkReproductionData (some value) = .ok () ↔ Reproducible 2048 value := by
  have hvisit : (∃ n, visit 0 0 value = .ok n) ↔ Reproducible 2048 value := by
    simp only [visit_ok, reproducible_iff, Passes, Nat.zero_add]
    exact ⟨fun ⟨_, h1, h2, _⟩ => ⟨h1, h2⟩, fun ⟨h1, h2⟩ => ⟨_, h1, h2, rfl⟩⟩
  rw [← hvisit]
  have hbind : (visit 0 0 value >>= fun _ => Except.ok ()) = .ok () ↔ ∃ n, visit 0 0 value = .ok n := by
    simp [bind_eq_ok]
  cases value with
  | null => exact ⟨fun _ => ⟨1, rfl⟩, fun _ => rfl⟩
  | _ => exact hbind

/-- What `check_reproduction_data` accepts, `redact` leaves as it is. -/
theorem redact_of_checked {value : Json} (h : checkReproductionData (some value) = .ok ()) :
    redact value = value := by
  have hr : Reproducible 2048 value := checkReproductionData_ok.mp h
  rw [redact_eq_self_iff]
  constructor
  · intro s hs
    exact (hr.strings s hs).2
  · intro fields key v hw hm hk
    exact absurd hk (hr.keys fields key v hw hm)

theorem reproductionData_not_sensitive : SENSITIVE_KEY.search (lit "reproductionData") = false := by decide

/-- The reproduction data of an accepted event is stored as it came. -/
theorem parseEvent_reproductionData {libs : Libraries} {raw : Bytes} {idempotencyKey : Option PyStr}
    {request : EventRequest} (h : parseEvent libs raw idempotencyKey = .ok request) :
    request.normalized.get? "reproductionData" = request.event.get? "reproductionData" := by
  obtain ⟨fields, s, -, -, he, hn, hc⟩ := parseEvent_ok h
  rw [hn, normalizedOf_get? (by decide), ← he]
  cases hv : request.event.get? "reproductionData" with
  | none => rfl
  | some value =>
    rw [hv] at hc
    rw [Option.map_some, redactField, reproductionData_not_sensitive, if_neg Bool.false_ne_true, redact_of_checked hc]

/-- The shorter limit is the only difference. -/
theorem Reproducible.iff_of_le {m n : ℕ} (hmn : m ≤ n) {value : Json} : Reproducible m value ↔
    Reproducible n value ∧ ¬ ∃ s, Within value (.str s) ∧ m < s.length := by
  constructor
  · intro h
    refine ⟨{ h with strings := fun s hs => ⟨(h.strings s hs).1.trans hmn, (h.strings s hs).2⟩ }, ?_⟩
    rintro ⟨s, hs, hlt⟩
    have := (h.strings s hs).1
    omega
  · rintro ⟨h, hno⟩
    refine { h with strings := fun s hs => ⟨?_, (h.strings s hs).2⟩ }
    by_contra hlt
    exact hno ⟨s, hs, not_le.mp hlt⟩

/-- **`check_reproduction_data` agrees with the documented limits** exactly on the values that do not owe their
rejection to a string of more than 2048 characters. -/
theorem reproduction_checked (value : Json) :
    (checkReproductionData (some value) = .ok () ↔ Reproducible Limits.reproductionString value) ↔
      ¬ (Reproducible Limits.reproductionString value ∧ ∃ s, Within value (.str s) ∧ 2048 < s.length) := by
  rw [checkReproductionData_ok, Reproducible.iff_of_le (show 2048 ≤ Limits.reproductionString by decide)]
  have shape : ∀ p q : Prop, ((p ∧ ¬ q) ↔ p) ↔ ¬ (p ∧ q) := by tauto
  exact shape _ _

/-- A text of one letter that starts no secret. -/
theorem not_occurs_replicate (n : ℕ) : ¬ SECRET.Occurs (List.replicate n (cp 'x')) := by
  rintro ⟨w, hw, hi⟩
  obtain ⟨c, w, rfl⟩ := List.exists_cons_of_ne_nil (SECRET.ne_nil hw)
  obtain rfl : c = cp 'x' := List.eq_of_mem_replicate (hi.subset (List.mem_cons_self ..))
  have := Re.mayStart_of_head hw (s := [cp 'x']) ⟨w, rfl⟩
  revert this
  decide

/-- A string of 2049 letters is refused. -/
theorem reproduction_refused : Reproducible Limits.reproductionString (.str (List.replicate 2049 (cp 'x'))) ∧
    checkReproductionData (some (.str (List.replicate 2049 (cp 'x')))) ≠ .ok () := by
  have hwithin : ∀ v, Within (.str (List.replicate 2049 (cp 'x'))) v → v = .str (List.replicate 2049 (cp 'x')) := by
    intro v hv
    obtain ⟨d, hd⟩ := within_iff_at.mp hv
    exact ((at_scalar (j := .str _) trivial).mp hd).2
  constructor
  · refine ⟨fun d v hv => ?_, by decide, fun fields key v hv => ?_, fun s hs => ?_⟩
    · obtain ⟨rfl, -⟩ := (at_scalar (j := .str _) trivial).mp hv
      exact Nat.zero_le _
    · cases hwithin _ hv
    · cases hwithin _ hs
      rw [List.length_replicate]
      exact ⟨by decide, not_occurs_replicate 2049⟩
  · rw [ne_eq, checkReproductionData_ok]
    intro h
    have := (h.strings _ .self).1
    rw [List.length_replicate] at this
    omega

end Aeh
