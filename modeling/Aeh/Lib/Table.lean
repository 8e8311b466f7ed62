import Mathlib.Algebra.GroupWithZero.Nat
import Mathlib.Algebra.Order.BigOperators.Group.Finset
import Mathlib.Data.List.Basic
import Mathlib.Data.List.Nodup

/-!
# Table — keyed tables as lists of rows

A table is the list of its rows in insertion order; the primary key is unique by construction, as the
database enforces it.  `insert` refuses a row whose key is taken or that `clashes` with a stored row
(the other unique indexes of the table), `put` replaces the row with the same key (an `UPDATE` of a
loaded row), `get`, `first` and `select` are the queries.  `total` adds up a measure of the rows, for
arguments by a decreasing quantity.
-/

namespace Aeh

/-- The primary key of a row. -/
class Keyed (ρ : Type) (κ : outParam Type) where
  key : ρ → κ

open Keyed

/-- Rows in insertion order, no two with the same primary key. -/
structure Table (ρ : Type) {κ : Type} [Keyed ρ κ] where
  rows : List ρ
  nodup : (rows.map key).Nodup

namespace Table

section Defs

variable {ρ κ : Type} [Keyed ρ κ]

/-- A table without rows. -/
def empty : Table ρ := ⟨[], List.nodup_nil⟩

/-- `SELECT … WHERE p`. -/
def select (t : Table ρ) (p : ρ → Bool) : List ρ := t.rows.filter p

/-- The first row of `SELECT … WHERE p`. -/
def first (t : Table ρ) (p : ρ → Bool) : Option ρ := (t.select p).head?

variable [DecidableEq κ]

/-- The row with primary key `k`. -/
def get (t : Table ρ) (k : κ) : Option ρ := t.rows.find? (fun r => key r = k)

/-- `l` with the row of `x`'s key replaced by `x`. -/
def replace (x : ρ) (l : List ρ) : List ρ := l.map (fun r => if key r = key x then x else r)

theorem map_key_replace (x : ρ) (l : List ρ) : (replace x l).map key = l.map key := by
  unfold replace
  rw [List.map_map]
  refine List.map_congr_left fun r _ => ?_
  by_cases h : key r = key x <;> simp [h]

/-- `UPDATE` of the row with `x`'s key. -/
def put (t : Table ρ) (x : ρ) : Table ρ :=
  ⟨replace x t.rows, by rw [map_key_replace]; exact t.nodup⟩

/-- `INSERT`; `none` is a violated unique constraint. -/
def insert (t : Table ρ) (clash : ρ → ρ → Bool) (x : ρ) : Option (Table ρ) :=
  if h : ∀ r ∈ t.rows, key r ≠ key x then
    if t.rows.any (clash x) then none
    else some ⟨t.rows ++ [x], by
      rw [List.map_append, List.nodup_append]
      refine ⟨t.nodup, by simp, ?_⟩
      rintro a ha b hb rfl
      obtain ⟨r, hr, rfl⟩ := List.mem_map.mp ha
      simp only [List.map_cons, List.map_nil, List.mem_singleton] at hb
      exact h r hr hb⟩
  else none

end Defs

section Queries

variable {ρ κ : Type} [Keyed ρ κ] {t : Table ρ} {x y r : ρ} {p : ρ → Bool}

/-- The primary key determines the row. -/
theorem eq_of_key (hx : x ∈ t.rows) (hy : y ∈ t.rows) (h : key x = key y) : x = y :=
  List.inj_on_of_nodup_map t.nodup hx hy h

theorem mem_select : r ∈ t.select p ↔ r ∈ t.rows ∧ p r = true := List.mem_filter

theorem mem_of_first (h : t.first p = some r) : r ∈ t.rows ∧ p r = true :=
  mem_select.mp (List.mem_of_mem_head? h)

theorem first_eq_none : t.first p = none ↔ ∀ r ∈ t.rows, ¬ p r = true := by
  unfold first select
  rw [List.head?_eq_none_iff, List.filter_eq_nil_iff]

/-- Where the rows of a query are one row, `first` finds it. -/
theorem first_eq_of_unique (hr : r ∈ t.rows) (hp : p r = true)
    (hu : ∀ y ∈ t.rows, p y = true → y = r) : t.first p = some r := by
  cases hf : t.first p with
  | none => exact absurd hp (first_eq_none.mp hf r hr)
  | some y =>
    obtain ⟨hy, hpy⟩ := mem_of_first hf
    rw [hu y hy hpy]

theorem select_nodup (t : Table ρ) (p : ρ → Bool) : ((t.select p).map key).Nodup :=
  (List.Sublist.map key List.filter_sublist).nodup t.nodup

end Queries

section Get

variable {ρ κ : Type} [Keyed ρ κ] [DecidableEq κ] {t : Table ρ} {r : ρ} {k : κ}

theorem get_eq_some : t.get k = some r ↔ r ∈ t.rows ∧ key r = k := by
  constructor
  · intro h
    exact ⟨List.mem_of_find?_eq_some h, by simpa using List.find?_some h⟩
  · rintro ⟨hr, rfl⟩
    cases hf : t.get (key r) with
    | none =>
      have := List.find?_eq_none.mp hf r hr
      simp at this
    | some y =>
      have hy : y ∈ t.rows := List.mem_of_find?_eq_some hf
      have hk : key y = key r := by simpa using List.find?_some hf
      rw [eq_of_key hy hr hk]

theorem get_eq_none : t.get k = none ↔ ∀ r ∈ t.rows, key r ≠ k := by
  simp [get, List.find?_eq_none]

theorem get_self (h : r ∈ t.rows) : t.get (key r) = some r := get_eq_some.mpr ⟨h, rfl⟩

end Get

section Put

variable {ρ κ : Type} [Keyed ρ κ] [DecidableEq κ] {t : Table ρ} {x y r : ρ} {k : κ} {p : ρ → Bool}

theorem mem_replace {l : List ρ} : r ∈ replace x l ↔
    (r = x ∧ ∃ y ∈ l, key y = key x) ∨ (r ∈ l ∧ key r ≠ key x) := by
  unfold replace
  rw [List.mem_map]
  constructor
  · rintro ⟨y, hy, rfl⟩
    by_cases h : key y = key x
    · exact Or.inl ⟨by simp [h], y, hy, h⟩
    · exact Or.inr ⟨by simp [h, hy], by simp [h]⟩
  · rintro (⟨rfl, y, hy, h⟩ | ⟨hr, h⟩)
    · exact ⟨y, hy, by simp [h]⟩
    · exact ⟨r, hr, by simp [h]⟩

@[simp] theorem replace_nil : replace x ([] : List ρ) = [] := rfl

theorem replace_cons_self (l : List ρ) (h : key r = key x) :
    replace x (r :: l) = x :: replace x l := by simp [replace, h]

theorem replace_cons_ne (l : List ρ) (h : key r ≠ key x) :
    replace x (r :: l) = r :: replace x l := by simp [replace, h]

theorem replace_one (h : key x = key r) : replace x [r] = [x] := by simp [replace, h]

theorem replace_second (h : key x = key r) (hy : key y ≠ key r) : replace x [y, r] = [y, x] := by
  simp [replace, h, hy]

/-- Replacing a key that does not occur changes nothing. -/
theorem replace_of_not_mem {l : List ρ} (h : ∀ r ∈ l, key r ≠ key x) : replace x l = l := by
  induction l with
  | nil => rfl
  | cons a l ih =>
    rw [replace_cons_ne l (h a (by simp)), ih (fun r hr => h r (by simp [hr]))]

theorem rows_put : (t.put x).rows = replace x t.rows := rfl

theorem mem_put : r ∈ (t.put x).rows ↔
    (r = x ∧ ∃ y ∈ t.rows, key y = key x) ∨ (r ∈ t.rows ∧ key r ≠ key x) := mem_replace

/-- Writing a row as it is. -/
theorem put_of_mem (h : x ∈ t.rows) : t.put x = t := by
  have hrows : replace x t.rows = t.rows := by
    unfold replace
    refine (List.map_congr_left fun r hr => ?_).trans (List.map_id _)
    by_cases hk : key r = key x
    · rw [if_pos hk, eq_of_key hr h hk]
      rfl
    · rw [if_neg hk]
      rfl
  cases t
  simp only [put, hrows]

theorem get_put_self (h : t.get (key x) = some y) : (t.put x).get (key x) = some x := by
  obtain ⟨hy, hk⟩ := get_eq_some.mp h
  exact get_eq_some.mpr ⟨mem_put.mpr (Or.inl ⟨rfl, y, hy, hk⟩), rfl⟩

theorem get_put_ne (h : k ≠ key x) : (t.put x).get k = t.get k := by
  cases hf : t.get k with
  | none =>
    refine get_eq_none.mpr fun r hr => ?_
    rcases mem_put.mp hr with ⟨rfl, -⟩ | ⟨hr, -⟩
    · exact fun h' => h h'.symm
    · exact get_eq_none.mp hf r hr
  | some r =>
    obtain ⟨hr, rfl⟩ := get_eq_some.mp hf
    exact get_eq_some.mpr ⟨mem_put.mpr (Or.inr ⟨hr, h⟩), rfl⟩

/-- A query whose answer the update cannot change row by row: the replaced rows are replaced in the
answer. -/
theorem select_put (h : ∀ r ∈ t.rows, key r = key x → p r = p x) :
    (t.put x).select p = replace x (t.select p) := by
  have key : ∀ l : List ρ, (∀ r ∈ l, key r = key x → p r = p x) →
      (replace x l).filter p = replace x (l.filter p) := by
    intro l
    induction l with
    | nil => intro _; rfl
    | cons a l ih =>
      intro hl
      have ih' := ih fun r hr => hl r (by simp [hr])
      by_cases ha : Keyed.key a = Keyed.key x
      · have hpa := hl a (by simp) ha
        rw [replace_cons_self l ha]
        cases hp : p x <;> rw [hp] at hpa <;> simp [hp, hpa, replace_cons_self, ha, ih']
      · rw [replace_cons_ne l ha]
        cases hp : p a <;> simp [hp, replace_cons_ne, ha, ih']
  exact key t.rows h

end Put

section Insert

variable {ρ κ : Type} [Keyed ρ κ] [DecidableEq κ] {t t' : Table ρ} {x r : ρ} {p : ρ → Bool}
  {clash : ρ → ρ → Bool}

theorem insert_eq_some (h : t.insert clash x = some t') :
    t'.rows = t.rows ++ [x] ∧ (∀ r ∈ t.rows, key r ≠ key x) ∧ ∀ r ∈ t.rows, clash x r = false := by
  unfold insert at h
  split_ifs at h with h1 h2
  simp only [Option.some.injEq] at h
  subst h
  refine ⟨rfl, h1, fun r hr => ?_⟩
  by_contra hc
  exact h2 (List.any_eq_true.mpr ⟨r, hr, by simpa using hc⟩)

/-- `insert` succeeds when no unique constraint is violated. -/
theorem insert_isSome (h : ∀ r ∈ t.rows, key r ≠ key x) (hc : ∀ r ∈ t.rows, clash x r = false) :
    ∃ t', t.insert clash x = some t' := by
  unfold insert
  rw [dif_pos h, if_neg]
  · exact ⟨_, rfl⟩
  · intro ha
    obtain ⟨r, hr, hr'⟩ := List.any_eq_true.mp ha
    rw [hc r hr] at hr'
    cases hr'

/-- A refused insertion has a violated constraint. -/
theorem insert_eq_none (h : t.insert clash x = none) :
    (∃ r ∈ t.rows, key r = key x) ∨ ∃ r ∈ t.rows, clash x r = true := by
  unfold insert at h
  split_ifs at h with h1 h2
  · exact Or.inr (List.any_eq_true.mp h2)
  · push Not at h1
    exact Or.inl h1

theorem mem_insert (h : t.insert clash x = some t') : r ∈ t'.rows ↔ r ∈ t.rows ∨ r = x := by
  rw [(insert_eq_some h).1, List.mem_append, List.mem_singleton]

theorem select_insert (h : t.insert clash x = some t') :
    t'.select p = t.select p ++ (if p x then [x] else []) := by
  unfold select
  rw [(insert_eq_some h).1, List.filter_append]
  cases hp : p x <;> simp [hp]

theorem get_insert_self (h : t.insert clash x = some t') : t'.get (key x) = some x :=
  get_eq_some.mpr ⟨(mem_insert h).mpr (Or.inr rfl), rfl⟩

theorem get_insert_ne {k : κ} (h : t.insert clash x = some t') (hk : k ≠ key x) : t'.get k = t.get k := by
  cases hg : t.get k with
  | none =>
    refine get_eq_none.mpr fun r hr => ?_
    rcases (mem_insert h).mp hr with hr | rfl
    · exact get_eq_none.mp hg r hr
    · exact hk.symm
  | some r =>
    obtain ⟨hr, rfl⟩ := get_eq_some.mp hg
    exact get_self ((mem_insert h).mpr (Or.inl hr))

end Insert

section Total

variable {ρ κ : Type} [Keyed ρ κ] [DecidableEq κ] {t t' : Table ρ} {f : ρ → ℕ}

/-- `SELECT SUM(f)`. -/
def total (t : Table ρ) (f : ρ → ℕ) : ℕ := (t.rows.map f).sum

/-- What the row with key `k` adds to a total. -/
def share (t : Table ρ) (f : ρ → ℕ) (k : κ) : ℕ := (t.get k).elim 0 f

theorem share_of_mem {r : ρ} (hr : r ∈ t.rows) : t.share f (key r) = f r := by
  unfold share
  rw [get_self hr]
  rfl

theorem share_of_none {k : κ} (hk : t.get k = none) : t.share f k = 0 := by
  unfold share
  rw [hk]
  rfl

/-- A total over the keys of the table and any others. -/
theorem total_eq_sum {s : Finset κ} (hs : ∀ r ∈ t.rows, key r ∈ s) : t.total f = ∑ k ∈ s, t.share f k := by
  have hkeys : ∑ k ∈ (t.rows.map key).toFinset, t.share f k = t.total f := by
    rw [List.sum_toFinset _ t.nodup, List.map_map]
    exact congrArg List.sum (List.map_congr_left fun r hr => share_of_mem hr)
  rw [← hkeys]
  refine Finset.sum_subset (fun k hk => ?_) fun k _ hk => share_of_none (get_eq_none.mpr fun r hr he => hk ?_)
  · obtain ⟨r, hr, rfl⟩ := List.mem_map.mp (List.mem_toFinset.mp hk)
    exact hs r hr
  · exact List.mem_toFinset.mpr (List.mem_map.mpr ⟨r, hr, he⟩)

theorem total_pair (t t' : Table ρ) (f : ρ → ℕ) : ∃ s : Finset κ, t.total f = ∑ k ∈ s, t.share f k ∧
    t'.total f = ∑ k ∈ s, t'.share f k ∧ ∀ r ∈ t'.rows, key r ∈ s := by
  refine ⟨(t.rows.map key).toFinset ∪ (t'.rows.map key).toFinset, total_eq_sum fun r hr => ?_,
    total_eq_sum fun r hr => ?_, fun r hr => ?_⟩
  · exact Finset.mem_union_left _ (List.mem_toFinset.mpr (List.mem_map_of_mem hr))
  · exact Finset.mem_union_right _ (List.mem_toFinset.mpr (List.mem_map_of_mem hr))
  · exact Finset.mem_union_right _ (List.mem_toFinset.mpr (List.mem_map_of_mem hr))

/-- A total grows if every row's share does. -/
theorem total_le (h : ∀ k, t.share f k ≤ t'.share f k) : t.total f ≤ t'.total f := by
  obtain ⟨s, ht, ht', -⟩ := total_pair t t' f
  rw [ht, ht']
  exact Finset.sum_le_sum fun k _ => h k

theorem total_lt (h : ∀ k, t.share f k ≤ t'.share f k) {r : ρ} (hr : r ∈ t'.rows) (hlt : t.share f (key r) < f r) :
    t.total f < t'.total f := by
  obtain ⟨s, ht, ht', hs⟩ := total_pair t t' f
  rw [ht, ht']
  exact Finset.sum_lt_sum (fun k _ => h k) ⟨key r, hs r hr, by rwa [share_of_mem hr]⟩

end Total

end Table

end Aeh
