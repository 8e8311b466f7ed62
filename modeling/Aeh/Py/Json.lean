import Aeh.Errors

/-!
# Json — JSON documents as Python holds them

A `dict` is the list of its items in insertion order.  A `float` is its 64-bit pattern: no modelled
function computes with one.
-/

namespace Aeh

inductive Json where
  | null
  | bool (b : Bool)
  | int (n : ℤ)
  | float (bits : UInt64)
  | str (s : PyStr)
  | arr (items : List Json)
  | obj (fields : List (PyStr × Json))

namespace Json

/-- The item of a key. -/
def lookup (key : PyStr) (fields : List (PyStr × Json)) : Option Json :=
  (fields.find? fun kv => kv.1 = key).map (·.2)

/-- `fields[key] = value`: an existing key keeps its place. -/
def assign (key : PyStr) (value : Json) : List (PyStr × Json) → List (PyStr × Json)
  | [] => [(key, value)]
  | (k, v) :: rest => if k = key then (key, value) :: rest else (k, v) :: assign key value rest

/-- `d.get(key)` of a `dict`. -/
def get? (j : Json) (key : String) : Option Json :=
  match j with
  | obj fields => lookup (lit key) fields
  | _ => none

/-- `d[key]`. -/
def getItem (j : Json) (key : String) : Except Exn Json :=
  match j.get? key with
  | some v => .ok v
  | none => .error .keyError

/-- `d[key]` where the value is used as a `str`. -/
def getStr (j : Json) (key : String) : Except Exn PyStr :=
  match j.get? key with
  | some (str s) => .ok s
  | some _ => .error .attributeError
  | none => .error .keyError

/-- `bool(j)`, except of a `float`, whose zero is its two bit patterns. -/
def truthy : Json → Bool
  | null => false
  | bool b => b
  | int n => n ≠ 0
  | float bits => bits ≠ 0 && bits ≠ 0x8000000000000000
  | str s => !s.isEmpty
  | arr items => !items.isEmpty
  | obj fields => !fields.isEmpty

theorem lookup_assign_self (key : PyStr) (value : Json) (fields : List (PyStr × Json)) :
    lookup key (assign key value fields) = some value := by
  induction fields with
  | nil => simp [assign, lookup]
  | cons kv rest ih =>
    obtain ⟨k, v⟩ := kv
    by_cases h : k = key
    · simp [assign, lookup, h]
    · simpa [assign, lookup, h] using ih

theorem lookup_assign_ne {key key' : PyStr} (value : Json) (fields : List (PyStr × Json)) (h : key' ≠ key) :
    lookup key' (assign key value fields) = lookup key' fields := by
  induction fields with
  | nil => simp [assign, lookup, h.symm]
  | cons kv rest ih =>
    obtain ⟨k, v⟩ := kv
    by_cases hk : k = key
    · subst hk
      simp [assign, lookup, h.symm]
    · by_cases hk' : k = key'
      · subst hk'
        simp [assign, lookup, h]
      · simpa [assign, lookup, hk, hk'] using ih

theorem mem_assign {key : PyStr} {value : Json} {fields : List (PyStr × Json)} {kv : PyStr × Json}
    (h : kv ∈ assign key value fields) : kv = (key, value) ∨ kv ∈ fields := by
  induction fields with
  | nil =>
    rw [assign, List.mem_singleton] at h
    exact Or.inl h
  | cons kv' rest ih =>
    obtain ⟨k, v⟩ := kv'
    unfold assign at h
    split_ifs at h with hk
    · rcases List.mem_cons.mp h with h | h
      · exact Or.inl h
      · exact Or.inr (List.mem_cons_of_mem _ h)
    · rcases List.mem_cons.mp h with rfl | h
      · exact Or.inr (List.mem_cons_self ..)
      · exact (ih h).imp id (List.mem_cons_of_mem _)

theorem mem_of_lookup {key : PyStr} {value : Json} {fields : List (PyStr × Json)}
    (h : lookup key fields = some value) : (key, value) ∈ fields := by
  obtain ⟨⟨k, v⟩, hf, rfl⟩ := Option.map_eq_some_iff.mp h
  have hk : k = key := by simpa using List.find?_some hf
  subst hk
  exact List.mem_of_find?_eq_some hf

/-- `Within j v`: the document `j` has the value `v`, itself or at any depth. -/
inductive Within (j : Json) : Json → Prop
  | self : Within j j
  | item {items : List Json} {v : Json} : Within j (.arr items) → v ∈ items → Within j v
  | field {fields : List (PyStr × Json)} {key : PyStr} {v : Json} :
      Within j (.obj fields) → (key, v) ∈ fields → Within j v

theorem Within.trans {j v w : Json} (hv : Within j v) (hw : Within v w) : Within j w := by
  induction hw with
  | self => exact hv
  | item _ hm ih => exact ih.item hm
  | field _ hm ih => exact ih.field hm

end Json

end Aeh
