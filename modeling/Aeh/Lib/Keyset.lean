import Mathlib.Data.List.Sort
import Mathlib.Data.Prod.Lex

/-!
# Keyset — paging through an ordered list

`Follows fetch c items`: fetching from the cursor `c` on, until there is no next one, yields `items`.
`page` takes `limit` rows of those `after` a cursor and one more to see whether there is a next page.
Where `after` selects just the rows behind the cursor, paging yields the list (`follows_page`); where it
selects the row of the cursor too, it yields some row twice (`not_nodup_of_follows`).
-/

namespace Aeh

/-! ## Following cursors -/

section Follows

variable {ε κ κ' α β : Type}

/-- The items of all pages from the cursor on; a derivation is a run that ends. -/
inductive Follows (fetch : Option κ → Except ε (List α × Option κ)) : Option κ → List α → Prop
  | last {c : Option κ} {items : List α} : fetch c = .ok (items, none) → Follows fetch c items
  | next {c : Option κ} {items rest : List α} {c' : κ} : fetch c = .ok (items, some c') →
      Follows fetch (some c') rest → Follows fetch c (items ++ rest)

variable {fetch : Option κ → Except ε (List α × Option κ)} {fetch' : Option κ' → Except ε (List β × Option κ')}

theorem Follows.unique {c : Option κ} {xs ys : List α} (hx : Follows fetch c xs) (hy : Follows fetch c ys) :
    xs = ys := by
  induction hx generalizing ys with
  | last h =>
    cases hy with
    | last h' =>
      rw [h] at h'
      cases h'
      rfl
    | next h' _ =>
      rw [h] at h'
      cases h'
  | next h _ ih =>
    cases hy with
    | last h' =>
      rw [h] at h'
      cases h'
    | next h' hy =>
      rw [h] at h'
      cases h'
      rw [ih hy]

/-- `fetch'` answers like `fetch` at the cursors that satisfy `P`, up to the codings of cursors and items. -/
def Simulates (fetch : Option κ → Except ε (List α × Option κ)) (fetch' : Option κ' → Except ε (List β × Option κ'))
    (P : Option κ → Prop) (code : κ → κ') (out : α → β) : Prop :=
  ∀ c, P c → ∃ items next, fetch c = .ok (items, next) ∧ P next ∧
    fetch' (c.map code) = .ok (items.map out, next.map code)

/-- A simulated paging yields what the simulating one does. -/
theorem Simulates.follows {P : Option κ → Prop} {code : κ → κ'} {out : α → β} (hs : Simulates fetch fetch' P code out)
    {c : Option κ} {xs : List α} (hc : P c) (h : Follows fetch c xs) : Follows fetch' (c.map code) (xs.map out) := by
  induction h with
  | last h =>
    obtain ⟨items, next, hf, -, hf'⟩ := hs _ hc
    rw [h] at hf
    cases hf
    exact .last hf'
  | next h _ ih =>
    obtain ⟨items, next, hf, hn, hf'⟩ := hs _ hc
    rw [h] at hf
    cases hf
    rw [List.map_append]
    exact .next hf' (ih hn)

theorem Simulates.of_follows {P : Option κ → Prop} {code : κ → κ'} {out : α → β}
    (hs : Simulates fetch fetch' P code out) {c : Option κ} {ys : List β} (hc : P c)
    (h : Follows fetch' (c.map code) ys) : ∃ xs, Follows fetch c xs ∧ ys = xs.map out := by
  generalize hc' : c.map code = c' at h
  induction h generalizing c with
  | last h =>
    subst hc'
    obtain ⟨items, next, hf, -, hf'⟩ := hs c hc
    rw [h] at hf'
    obtain ⟨rfl, hn⟩ := Prod.mk.inj (Except.ok.inj hf')
    obtain rfl := Option.map_eq_none_iff.mp hn.symm
    exact ⟨items, .last hf, rfl⟩
  | next h _ ih =>
    subst hc'
    obtain ⟨items, next, hf, hn, hf'⟩ := hs c hc
    rw [h] at hf'
    obtain ⟨rfl, hc''⟩ := Prod.mk.inj (Except.ok.inj hf')
    obtain ⟨xs, hxs, rfl⟩ := ih hn hc''.symm
    obtain ⟨k, rfl, -⟩ := Option.map_eq_some_iff.mp hc''.symm
    exact ⟨items ++ xs, .next hf hxs, by rw [List.map_append]⟩

/-- Fetches that answer alike at related cursors yield the same. -/
theorem Follows.rel {fetch' : Option κ' → Except ε (List α × Option κ')} {R : Option κ → Option κ' → Prop}
    (hs : ∀ c c' items next, R c c' → fetch c = .ok (items, next) →
      ∃ next', fetch' c' = .ok (items, next') ∧ (next' = none ↔ next = none) ∧ (next ≠ none → R next next'))
    {c : Option κ} {c' : Option κ'} {xs : List α} (hc : R c c') (h : Follows fetch c xs) : Follows fetch' c' xs := by
  induction h generalizing c' with
  | last h =>
    obtain ⟨next', hf, hn, -⟩ := hs _ _ _ _ hc h
    rw [hn.mpr rfl] at hf
    exact .last hf
  | next h _ ih =>
    obtain ⟨next', hf, hn, hr⟩ := hs _ _ _ _ hc h
    cases next' with
    | none => cases hn.mp rfl
    | some k => exact .next hf (ih (hr (Option.some_ne_none _)))

/-- The first `n` pages, the `k`-th one as `fetch k` answers it: their items and the cursor that is left. -/
inductive Visits (fetch : ℕ → Option κ → Except ε (List α × Option κ)) : ℕ → List α → Option κ → Prop
  | first {items : List α} {next : Option κ} : fetch 0 none = .ok (items, next) → Visits fetch 1 items next
  | more {n : ℕ} {items page : List α} {c : κ} {next : Option κ} : Visits fetch n items (some c) →
      fetch n (some c) = .ok (page, next) → Visits fetch (n + 1) (items ++ page) next

theorem Visits.first_ok {fetch : ℕ → Option κ → Except ε (List α × Option κ)} {n : ℕ} {items : List α} {next : Option κ}
    (h : Visits fetch n items next) : 0 < n ∧ ∃ answer, fetch 0 none = .ok answer := by
  induction h with
  | first h => exact ⟨Nat.zero_lt_one, _, h⟩
  | more _ _ ih => exact ⟨Nat.succ_pos _, ih.2⟩

theorem Simulates.of_visits {fetch : ℕ → Option κ → Except ε (List α × Option κ)}
    {fetch' : ℕ → Option κ' → Except ε (List β × Option κ')} {P : Option κ → Prop} {code : κ → κ'} {out : α → β}
    (hs : ∀ k, Simulates (fetch k) (fetch' k) P code out) (h₀ : P none) {n : ℕ} {ys : List β} {c' : Option κ'}
    (h : Visits fetch' n ys c') : ∃ xs c, Visits fetch n xs c ∧ P c ∧ ys = xs.map out ∧ c' = c.map code := by
  induction h with
  | first h =>
    obtain ⟨items, next, hf, hn, hf'⟩ := hs 0 none h₀
    rw [Option.map_none, h] at hf'
    obtain ⟨rfl, rfl⟩ := Prod.mk.inj (Except.ok.inj hf')
    exact ⟨items, next, .first hf, hn, rfl, rfl⟩
  | @more n _ page _ next _ h ih =>
    obtain ⟨xs, c, hv, hc, rfl, hcode⟩ := ih
    obtain ⟨k, rfl, rfl⟩ := Option.map_eq_some_iff.mp hcode.symm
    obtain ⟨items, next, hf, hn, hf'⟩ := hs n (some k) hc
    rw [Option.map_some, h] at hf'
    obtain ⟨rfl, rfl⟩ := Prod.mk.inj (Except.ok.inj hf')
    exact ⟨xs ++ items, next, .more hv hf, hn, (List.map_append ..).symm, rfl⟩

end Follows

/-! ## Pages of a list -/

section Page

variable (ε : Type) {α : Type} (L : List α) (after : α → α → Bool) (limit : ℕ)

/-- The rows behind a cursor. -/
def behind : Option α → List α
  | none => L
  | some x => L.filter (after x)

/-- One page and the cursor of the next: `limit + 1` rows are fetched, and the last one shown is the cursor
if there are more. -/
def page (c : Option α) : Except ε (List α × Option α) :=
  let rows := (behind L after c).take (limit + 1)
  .ok (rows.take limit, if limit < rows.length then rows[limit - 1]? else none)

variable {L after limit}

/-- A page that is not the last one. -/
theorem page_more {c : Option α} (hl : 0 < limit) (h : limit < (behind L after c).length) :
    ∃ l₁ x l₂, behind L after c = l₁ ++ x :: l₂ ∧ l₂ ≠ [] ∧ l₁.length + 1 = limit ∧
      page ε L after limit c = .ok (l₁ ++ [x], some x) := by
  generalize hB : behind L after c = B at h
  have hk : limit - 1 < B.length := by omega
  have hsplit : B = B.take (limit - 1) ++ B[limit - 1] :: B.drop limit := by
    have hd := List.drop_eq_getElem_cons hk
    rw [Nat.sub_add_cancel hl] at hd
    rw [← hd, List.take_append_drop]
  have hlen : (B.take (limit - 1)).length + 1 = limit := by
    rw [List.length_take]
    omega
  refine ⟨B.take (limit - 1), B[limit - 1], B.drop limit, hsplit, ?_, hlen, ?_⟩
  · intro h0
    have : (B.drop limit).length = B.length - limit := List.length_drop
    rw [h0] at this
    simp only [List.length_nil] at this
    omega
  · have ht : B.take limit = B.take (limit - 1) ++ [B[limit - 1]] := by
      have := List.take_succ_eq_append_getElem hk
      rwa [Nat.sub_add_cancel hl] at this
    have hlong : limit < (B.take (limit + 1)).length := by
      rw [List.length_take]
      omega
    have hget : (B.take (limit + 1))[limit - 1]? = some B[limit - 1] := by
      rw [List.getElem?_take_of_lt (by omega), List.getElem?_eq_getElem hk]
    simp only [page, hB, if_pos hlong, hget, List.take_take, Nat.min_eq_left (Nat.le_succ limit), ht]

/-- The last page. -/
theorem page_last {c : Option α} (h : (behind L after c).length ≤ limit) :
    page ε L after limit c = .ok (behind L after c, none) := by
  have ht : (behind L after c).take (limit + 1) = behind L after c := List.take_of_length_le (by omega)
  simp only [page, ht, if_neg (Nat.not_lt.mpr h), List.take_of_length_le h]

variable {ε}

/-- A page is the rest, or `limit` rows of it and the last one as the cursor. -/
theorem page_spec (hl : 0 < limit) {c : Option α} {items : List α} {next : Option α}
    (h : page ε L after limit c = .ok (items, next)) :
    (next = none ∧ items = behind L after c) ∨
      ∃ l x rest, behind L after c = l ++ x :: rest ∧ items = l ++ [x] ∧ next = some x ∧ items.length = limit := by
  rcases Nat.lt_or_ge limit (behind L after c).length with hmore | hlast
  · obtain ⟨l, x, rest, hb, -, hlen, hp⟩ := page_more ε hl hmore
    obtain ⟨rfl, rfl⟩ := Prod.mk.inj (Except.ok.inj (h.symm.trans hp))
    exact Or.inr ⟨l, x, rest, hb, rfl, rfl, by simpa using hlen⟩
  · obtain ⟨rfl, rfl⟩ := Prod.mk.inj (Except.ok.inj (h.symm.trans (page_last ε hlast)))
    exact Or.inl ⟨rfl, rfl⟩

/-- **Paging yields every row once and in order**, if `after` selects the rows behind the cursor. -/
theorem follows_page (hl : 0 < limit) (hafter : ∀ l₁ x l₂, L = l₁ ++ x :: l₂ → L.filter (after x) = l₂) :
    Follows (page ε L after limit) none L := by
  have hgo : ∀ n c, (behind L after c).length = n → (∃ l, L = l ++ behind L after c) →
      Follows (page ε L after limit) c (behind L after c) := by
    intro n
    induction n using Nat.strong_induction_on with
    | _ n ih =>
      intro c hn hc
      rcases Nat.lt_or_ge limit (behind L after c).length with hmore | hlast
      · obtain ⟨l₁, x, l₂, hb, -, -, hp⟩ := page_more ε hl hmore
        obtain ⟨l, hL⟩ := hc
        have hx : behind L after (some x) = l₂ := hafter (l ++ l₁) x l₂ (by rw [hL, hb]; simp)
        have hlt : l₂.length < n := by
          rw [← hn, hb, List.length_append, List.length_cons]
          omega
        have hrest := ih l₂.length hlt (some x) (by rw [hx]) ⟨l ++ l₁ ++ [x], by rw [hx, hL, hb]; simp⟩
        rw [hx] at hrest
        have := Follows.next hp hrest
        rwa [List.append_assoc, List.singleton_append, ← hb] at this
      · exact .last (page_last ε hlast)
  exact hgo L.length none rfl ⟨[], rfl⟩

/-- Every page starts with the first row behind its cursor. -/
theorem head_mem_of_follows (hl : 0 < limit) {c : Option α} {xs : List α} {y : α}
    (h : Follows (page ε L after limit) c xs) (hy : (behind L after c).head? = some y) : y ∈ xs := by
  obtain ⟨t, ht⟩ : ∃ t, behind L after c = y :: t := by
    cases hb : behind L after c with
    | nil =>
      rw [hb] at hy
      cases hy
    | cons z t =>
      rw [hb] at hy
      cases hy
      exact ⟨t, rfl⟩
  have hfirst : ∀ items next, page ε L after limit c = .ok (items, next) → y ∈ items := by
    intro items next hp
    rcases Nat.lt_or_ge limit (behind L after c).length with hmore | hlast
    · obtain ⟨l₁, x, l₂, hb, -, -, hp'⟩ := page_more ε hl hmore
      rw [hp] at hp'
      cases hp'
      rw [ht] at hb
      cases l₁ with
      | nil => simp_all
      | cons z l₁ =>
        cases hb
        simp
    · rw [page_last ε hlast, ht] at hp
      cases hp
      exact List.mem_cons_self ..
  cases h with
  | last h => exact hfirst _ _ h
  | next h _ => exact List.mem_append_left _ (hfirst _ _ h)

/-- **Some row is yielded twice** if the row of the cursor is not excluded and there is a second page. -/
theorem not_nodup_of_follows (hl : 0 < limit) (hlong : limit < L.length) (hself : ∀ x ∈ L, after x x = true)
    {xs : List α} (h : Follows (page ε L after limit) none xs) : ¬ xs.Nodup := by
  obtain ⟨l₁, x, l₂, hL, -, -, hp⟩ := page_more (c := none) ε hl (show limit < (behind L after none).length from hlong)
  change L = _ at hL
  have hx : x ∈ L := by
    rw [hL]
    simp
  -- the next page starts at `x` or before it
  have hhead : ∃ y, (L.filter (after x)).head? = some y ∧ y ∈ l₁ ++ [x] := by
    rw [hL, List.filter_append, List.filter_cons_of_pos (hself x hx)]
    cases hf : l₁.filter (after x) with
    | nil => exact ⟨x, rfl, by simp⟩
    | cons y t =>
      have hy : y ∈ l₁.filter (after x) := by
        rw [hf]
        exact List.mem_cons_self ..
      exact ⟨y, rfl, List.mem_append_left _ (List.mem_of_mem_filter hy)⟩
  obtain ⟨y, hy, hmem⟩ := hhead
  cases h with
  | last h =>
    rw [hp] at h
    cases h
  | next h hrest =>
    rw [hp] at h
    cases h
    intro hn
    exact (List.nodup_append.mp hn).2.2 y hmem y (head_mem_of_follows hl hrest hy) rfl

end Page

/-! ## Rows in descending order of a key -/

section Order

variable {α κ : Type} [LinearOrder κ] (key : α → κ)

/-- `ORDER BY key DESC`. -/
def sortDesc (l : List α) : List α := l.insertionSort fun a b => key b ≤ key a

theorem sortDesc_perm (l : List α) : (sortDesc key l).Perm l := List.perm_insertionSort _ l

theorem mem_sortDesc {key : α → κ} {l : List α} {x : α} : x ∈ sortDesc key l ↔ x ∈ l := List.mem_insertionSort _

theorem sortDesc_pairwise (l : List α) : (sortDesc key l).Pairwise fun a b => key b ≤ key a := by
  have : Std.Total fun a b : α => key b ≤ key a := ⟨fun a b => le_total (key b) (key a)⟩
  have : IsTrans α fun a b => key b ≤ key a := ⟨fun _ _ _ hab hbc => hbc.trans hab⟩
  exact List.pairwise_insertionSort _ l

variable {key} {l : List α} (hk : ∀ x ∈ l, ∀ y ∈ l, key x = key y → x = y)

include hk

/-- Rows with different keys have one order. -/
theorem sortDesc_filter (p : α → Bool) : sortDesc key (l.filter p) = (sortDesc key l).filter p := by
  refine List.Perm.eq_of_pairwise ?_ (sortDesc_pairwise key _) ((sortDesc_pairwise key l).filter p) ?_
  · intro a b ha hb hba hab
    have ha' := (List.mem_filter.mp (mem_sortDesc.mp ha)).1
    have hb' := mem_sortDesc.mp (List.mem_filter.mp hb).1
    exact hk a ha' b hb' (le_antisymm hab hba)
  · exact (sortDesc_perm key _).trans ((sortDesc_perm key l).filter p).symm

theorem sortDesc_strict (hn : l.Nodup) : (sortDesc key l).Pairwise fun a b => key b < key a := by
  have hn' : (sortDesc key l).Nodup := (sortDesc_perm key l).nodup_iff.mpr hn
  refine ((sortDesc_pairwise key l).and hn').imp_of_mem ?_
  intro a b ha hb ⟨hle, hne⟩
  refine lt_of_le_of_ne hle fun h => hne ?_
  exact hk a (mem_sortDesc.mp ha) b (mem_sortDesc.mp hb) h.symm

omit hk

/-- The rows with a smaller key are those behind. -/
theorem filter_key_lt {L l₁ l₂ : List α} {x : α} (hs : L.Pairwise fun a b => key b < key a) (hL : L = l₁ ++ x :: l₂) :
    L.filter (fun y => decide (key y < key x)) = l₂ := by
  subst hL
  obtain ⟨-, h₂, h₁⟩ := List.pairwise_append.mp hs
  have hfront : l₁.filter (fun y => decide (key y < key x)) = [] := by
    refine List.filter_eq_nil_iff.mpr fun y hy => ?_
    simpa using (h₁ y hy x (List.mem_cons_self ..)).le
  have hback : l₂.filter (fun y => decide (key y < key x)) = l₂ := by
    refine List.filter_eq_self.mpr fun y hy => ?_
    exact decide_eq_true ((List.pairwise_cons.mp h₂).1 y hy)
  rw [List.filter_append, List.filter_cons_of_neg (by simp), hfront, hback, List.nil_append]

end Order

/-! ## Rows that change between the pages -/

section Changes

variable {ε α κ : Type} [LinearOrder κ] (key : α → κ)

/-- The rows of a page and the next cursor, where the rows of `L` behind the cursor `c` are asked for. -/
structure Shows (L : List α) (limit : ℕ) (c : Option α) (items : List α) (next : Option α) : Prop where
  descending : items.Pairwise fun a b => key b < key a
  listed : ∀ x ∈ items, x ∈ L ∧ ∀ y ∈ c, key x < key y
  cursor : ∀ x ∈ next, x ∈ items ∧ ∀ y ∈ items, key x ≤ key y
  full : next ≠ none → items.length = limit
  complete : ∀ x ∈ L, (∀ y ∈ c, key x < key y) → x ∈ items ∨ ∃ y ∈ next, key x < key y

/-- The pages so far, the `k`-th one of the rows `L k`: each row once and in order; a key that was in each `L k` has been
listed, or is behind the cursor that is left. -/
structure Covers (L : ℕ → List α) (limit n : ℕ) (items : List α) (next : Option α) : Prop where
  descending : items.Pairwise fun a b => key b < key a
  listed : ∀ x ∈ items, ∃ k < n, x ∈ L k
  cursor : ∀ x ∈ next, x ∈ items ∧ ∀ y ∈ items, key x ≤ key y
  full : next ≠ none → items.length = n * limit
  complete : ∀ v, (∀ k < n, ∃ x ∈ L k, key x = v) → (∃ x ∈ items, key x = v) ∨ ∃ y ∈ next, v < key y

variable {key} {limit : ℕ}

theorem page_shows {L : List α} (hl : 0 < limit) (hL : L.Pairwise fun a b => key b < key a) {c : Option α} {items : List α}
    {next : Option α} (h : page ε L (fun x y => decide (key y < key x)) limit c = .ok (items, next)) :
    Shows key L limit c items next := by
  have hmem : ∀ x, x ∈ behind L (fun x y => decide (key y < key x)) c ↔ x ∈ L ∧ ∀ y ∈ c, key x < key y := by
    intro x
    cases c with
    | none => simp [behind]
    | some y => simp [behind]
  have hdesc : (behind L (fun x y => decide (key y < key x)) c).Pairwise fun a b => key b < key a := by
    cases c with
    | none => exact hL
    | some y => exact hL.filter _
  rcases page_spec hl h with ⟨rfl, rfl⟩ | ⟨l, x, rest, hb, rfl, rfl, hlen⟩
  · exact ⟨hdesc, fun x hx => (hmem x).mp hx, nofun, fun hn => absurd rfl hn, fun x hx hc => Or.inl ((hmem x).mpr ⟨hx, hc⟩)⟩
  · rw [hb, List.append_cons, List.pairwise_append] at hdesc
    obtain ⟨hpage, -, hrest⟩ := hdesc
    refine ⟨hpage, fun y hy => (hmem y).mp ?_, ?_, fun _ => hlen, fun y hy hc => ?_⟩
    · rw [hb, List.append_cons]
      exact List.mem_append_left _ hy
    · rintro _ ⟨⟩
      refine ⟨List.mem_append_right _ (List.mem_singleton_self x), fun y hy => ?_⟩
      rcases List.mem_append.mp hy with hy | hy
      · exact ((List.pairwise_append.mp hpage).2.2 y hy x (List.mem_singleton_self x)).le
      · rw [List.mem_singleton.mp hy]
    · have hy' := (hmem y).mpr ⟨hy, hc⟩
      rw [hb, List.append_cons] at hy'
      rcases List.mem_append.mp hy' with hy' | hy'
      · exact Or.inl hy'
      · exact Or.inr ⟨x, rfl, hrest x (List.mem_append_right _ (List.mem_singleton_self x)) y hy'⟩

theorem Shows.covers {L : ℕ → List α} {items : List α} {next : Option α} (h : Shows key (L 0) limit none items next) :
    Covers key L limit 1 items next where
  descending := h.descending
  listed x hx := ⟨0, Nat.zero_lt_one, (h.listed x hx).1⟩
  cursor := h.cursor
  full hn := by rw [h.full hn, Nat.one_mul]
  complete v hv := by
    obtain ⟨x, hx, rfl⟩ := hv 0 Nat.zero_lt_one
    rcases h.complete x hx nofun with hx | hx
    · exact Or.inl ⟨x, hx, rfl⟩
    · exact Or.inr hx

/-- One more page. -/
theorem Covers.more {L : ℕ → List α} {n : ℕ} {items page : List α} {c : α} {next : Option α}
    (h : Covers key L limit n items (some c)) (hp : Shows key (L n) limit (some c) page next) :
    Covers key L limit (n + 1) (items ++ page) next := by
  have behind : ∀ x ∈ items, ∀ y ∈ page, key y < key x := fun x hx y hy =>
    ((hp.listed y hy).2 c rfl).trans_le ((h.cursor c rfl).2 x hx)
  refine ⟨List.pairwise_append.mpr ⟨h.descending, hp.descending, behind⟩, fun x hx => ?_, fun x hx => ?_, fun hn => ?_,
    fun v hv => ?_⟩
  · rcases List.mem_append.mp hx with hx | hx
    · obtain ⟨k, hk, hx⟩ := h.listed x hx
      exact ⟨k, Nat.lt_succ_of_lt hk, hx⟩
    · exact ⟨n, Nat.lt_succ_self n, (hp.listed x hx).1⟩
  · obtain ⟨hmem, hle⟩ := hp.cursor x hx
    refine ⟨List.mem_append_right _ hmem, fun y hy => ?_⟩
    rcases List.mem_append.mp hy with hy | hy
    · exact (behind y hy x hmem).le
    · exact hle y hy
  · rw [List.length_append, h.full (Option.some_ne_none c), hp.full hn, Nat.succ_mul]
  · rcases h.complete v fun k hk => hv k (Nat.lt_succ_of_lt hk) with ⟨x, hx, hv'⟩ | ⟨_, ⟨⟩, hlt⟩
    · exact Or.inl ⟨x, List.mem_append_left _ hx, hv'⟩
    · obtain ⟨x, hx, rfl⟩ := hv n (Nat.lt_succ_self n)
      rcases hp.complete x hx fun _ hy => Option.some.inj hy ▸ hlt with hx | hx
      · exact Or.inl ⟨x, List.mem_append_right _ hx, rfl⟩
      · exact Or.inr hx

/-- **Paging through rows that change**: nothing is listed twice, and what is there all the time is listed. -/
theorem Visits.covers {L : ℕ → List α} (hl : 0 < limit) (hL : ∀ k, (L k).Pairwise fun a b => key b < key a) {n : ℕ}
    {items : List α} {next : Option α}
    (h : Visits (fun k => page ε (L k) (fun x y => decide (key y < key x)) limit) n items next) :
    Covers key L limit n items next := by
  induction h with
  | first h => exact (page_shows hl (hL 0) h).covers
  | more _ h ih => exact ih.more (page_shows hl (hL _) h)

end Changes

end Aeh
