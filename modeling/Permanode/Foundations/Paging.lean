import Mathlib.Data.List.Dedup
import Mathlib.Data.List.Sort
import Permanode.Foundations.Outcome

/-!
# Foundations/Paging — reading rows page by page

Rows are read downwards by a key: a page holds the first rows below where the page before ended
(`page`), and each page is taken from the rows as they then are (`walk`).  Where a key is one row's
alone, a row that is there all the time is read once, whatever comes and goes beside it
(`mem_walk`); and rows that stay as they are are all read, by pages of any size, only if it is
(`walk_perm_iff`).  A page without holes does not change while its rows stay (`page_unbroken`).
Pages by number are the `chunk`s of a list, which read it whole (`mapM_chunks`).
-/

namespace Paging

variable {α κ : Type} [LinearOrder κ] (key : α → κ)

/-- The first `limit` rows below `before`, the highest first. -/
def page (limit : ℕ) (before : κ) (rows : List α) : List α :=
  ((rows.filter fun a => key a < before).insertionSort fun a b => key b ≤ key a).take limit

/-- The pages of a reader, who goes on below the last row he has got; an empty page is his last. -/
def walk (limit : ℕ) : κ → List (List α) → List (List α)
  | _, [] => []
  | before, rows :: later =>
    let p := page key limit before rows
    p :: (p.getLast?.elim [] fun a => walk limit (key a) later)

variable {key} {limit : ℕ} {before : κ} {rows : List α} {sources : List (List α)} {a b : α}

/-! ## A page -/

theorem mem_page (h : a ∈ page key limit before rows) : a ∈ rows ∧ key a < before := by
  have hmem := (List.mem_insertionSort _).mp (List.mem_of_mem_take h)
  exact ⟨List.mem_of_mem_filter hmem, of_decide_eq_true (List.mem_filter.mp hmem).2⟩

theorem length_page_le : (page key limit before rows).length ≤ limit := by
  rw [page, List.length_take]
  exact Nat.min_le_left _ _

instance total_key : Std.Total fun a b : α => key b ≤ key a := ⟨fun a b => le_total (key b) (key a)⟩

instance trans_key : IsTrans α fun a b : α => key b ≤ key a := ⟨fun _ _ _ hab hbc => hbc.trans hab⟩

theorem pairwise_page : (page key limit before rows).Pairwise fun a b => key b ≤ key a :=
  (List.pairwise_insertionSort _ _).sublist (List.take_sublist _ _)

/-- Where keys are distinct, a page goes down. -/
theorem pairwise_page_lt (hkeys : (rows.map key).Nodup) :
    (page key limit before rows).Pairwise fun a b => key b < key a := by
  have hsorted : ((rows.filter fun a => key a < before).insertionSort
      fun a b => key b ≤ key a).Pairwise fun a b => key b < key a := by
    have hnodup : (((rows.filter fun a => key a < before).insertionSort
        fun a b => key b ≤ key a).map key).Nodup :=
      ((List.perm_insertionSort _ _).map key).nodup_iff.mpr
        (hkeys.sublist (List.filter_sublist.map key))
    exact ((List.pairwise_insertionSort _ _).and (List.pairwise_map.mp hnodup)).imp
      fun h => lt_of_le_of_ne h.1 (Ne.symm h.2)
  exact hsorted.sublist (List.take_sublist _ _)

/-- The last row of a page is its lowest. -/
theorem getLast_le (hlast : (page key limit before rows).getLast? = some b)
    (ha : a ∈ page key limit before rows) : key b ≤ key a := by
  obtain ⟨l, hl⟩ := List.getLast?_eq_some_iff.mp hlast
  have hp : (page key limit before rows).Pairwise fun a b => key b ≤ key a := pairwise_page
  rw [hl] at ha hp
  rcases List.mem_append.mp ha with ha | ha
  · exact (List.pairwise_append.mp hp).2.2 a ha b (List.mem_singleton_self b)
  · exact (List.mem_singleton.mp ha) ▸ le_rfl

/-- **A page leaves out only what is below all of it**, and only if it is full. -/
theorem full_of_not_mem (ha : a ∈ rows) (hlt : key a < before)
    (hnot : a ∉ page key limit before rows) : (page key limit before rows).length = limit
      ∧ ∀ b ∈ page key limit before rows, key a ≤ key b := by
  let sorted := (rows.filter fun a => key a < before).insertionSort fun a b => key b ≤ key a
  have hmem : a ∈ sorted := (List.mem_insertionSort _).mpr
    (List.mem_filter.mpr ⟨ha, decide_eq_true hlt⟩)
  rw [← List.take_append_drop limit sorted, List.mem_append] at hmem
  have hdrop : a ∈ sorted.drop limit := hmem.resolve_left hnot
  have hp : sorted.Pairwise fun a b => key b ≤ key a := List.pairwise_insertionSort _ _
  rw [← List.take_append_drop limit sorted] at hp
  refine ⟨?_, fun b hb => (List.pairwise_append.mp hp).2.2 b hb a hdrop⟩
  have hlen : limit < sorted.length := by
    by_contra h
    rw [List.drop_eq_nil_of_le (by omega)] at hdrop
    exact List.not_mem_nil hdrop
  exact (List.length_take).trans (Nat.min_eq_left hlen.le)

/-! ## The walk -/

theorem walk_cons : walk key limit before (rows :: sources)
    = page key limit before rows :: ((page key limit before rows).getLast?.elim []
      fun a => walk key limit (key a) sources) := rfl

/-- What is read is below where the reader began, and was there when he came by. -/
theorem mem_walk_flatten : ∀ {sources : List (List α)} {before : κ},
    a ∈ (walk key limit before sources).flatten → key a < before ∧ ∃ rows ∈ sources, a ∈ rows
  | [], _, h => absurd h List.not_mem_nil
  | rows :: sources, before, h => by
      rw [walk_cons, List.flatten_cons, List.mem_append] at h
      rcases h with h | h
      · exact ⟨(mem_page h).2, rows, List.mem_cons_self, (mem_page h).1⟩
      · rcases hlast : (page key limit before rows).getLast? with _ | b
        · rw [hlast] at h
          exact absurd h List.not_mem_nil
        · rw [hlast] at h
          obtain ⟨hlt, rows', hrows', ha⟩ := mem_walk_flatten h
          have hb : key b < before := (mem_page (List.mem_of_getLast? hlast)).2
          exact ⟨hlt.trans hb, rows', List.mem_cons_of_mem _ hrows', ha⟩

/-- **The pages go down**, if each does. -/
theorem pairwise_walk : ∀ {sources : List (List α)} {before : κ},
    (∀ rows ∈ sources, ∀ before, (page key limit before rows).Pairwise fun a b => key b < key a) →
      (walk key limit before sources).flatten.Pairwise fun a b => key b < key a
  | [], _, _ => List.Pairwise.nil
  | rows :: sources, before, hpages => by
      rw [walk_cons, List.flatten_cons]
      refine List.pairwise_append.mpr ⟨hpages rows List.mem_cons_self before, ?_, ?_⟩
      · rcases (page key limit before rows).getLast? with _ | b
        · exact List.Pairwise.nil
        · exact pairwise_walk fun rows' h => hpages rows' (List.mem_cons_of_mem _ h)
      · intro a ha c hc
        rcases hlast : (page key limit before rows).getLast? with _ | b
        · rw [hlast] at hc
          exact absurd hc List.not_mem_nil
        · rw [hlast] at hc
          exact (mem_walk_flatten hc).1.trans_le (getLast_le hlast ha)

/-- **A row that is always there is read**, or is below all that was read so far, in full pages. -/
theorem mem_walk : ∀ {sources : List (List α)} {before : κ},
    0 < limit → (∀ rows ∈ sources, (rows.map key).Nodup) → (∀ rows ∈ sources, a ∈ rows) →
      key a < before → a ∈ (walk key limit before sources).flatten
        ∨ (walk key limit before sources).length = sources.length
          ∧ (∀ p ∈ walk key limit before sources, p.length = limit)
          ∧ ∀ b ∈ (walk key limit before sources).flatten, key a < key b
  | [], _, _, _, _, _ => Or.inr ⟨rfl, fun _ h => absurd h List.not_mem_nil,
      fun _ h => absurd h List.not_mem_nil⟩
  | rows :: sources, before, hlimit, hkeys, ha, hlt => by
      rw [walk_cons, List.flatten_cons]
      by_cases hmem : a ∈ page key limit before rows
      · exact Or.inl (List.mem_append_left _ hmem)
      · have harows : a ∈ rows := ha rows List.mem_cons_self
        obtain ⟨hfull, hle⟩ := full_of_not_mem harows hlt hmem
        -- a row of the page with the key of `a` would be `a`
        have hbelow : ∀ b ∈ page key limit before rows, key a < key b := fun b hb =>
          lt_of_le_of_ne (hle b hb) fun h => hmem
            (List.inj_on_of_nodup_map (hkeys rows List.mem_cons_self) harows (mem_page hb).1 h ▸ hb)
        rcases hlast : (page key limit before rows).getLast? with _ | b
        · rw [List.getLast?_eq_none_iff] at hlast
          rw [hlast] at hfull
          exact absurd hfull hlimit.ne
        · have hb : b ∈ page key limit before rows := List.mem_of_getLast? hlast
          rcases mem_walk hlimit (fun r h => hkeys r (List.mem_cons_of_mem _ h))
            (fun r h => ha r (List.mem_cons_of_mem _ h)) (hbelow b hb) with hrest | ⟨hn, hall, hlow⟩
          · exact Or.inl (List.mem_append_right _ hrest)
          · refine Or.inr ⟨congrArg (· + 1) hn, fun p hp => ?_, fun c hc => ?_⟩
            · rcases List.mem_cons.mp hp with rfl | hp
              · exact hfull
              · exact hall p hp
            · rcases List.mem_append.mp hc with hc | hc
              · exact hbelow c hc
              · exact hlow c hc

theorem map_page {β : Type} {key' : β → κ} {f : α → β} (hf : ∀ a, key' (f a) = key a) :
    (page key limit before rows).map f = page key' limit before (rows.map f) := by
  rw [page, page, List.map_take, List.filter_map]
  refine congrArg _ ?_
  rw [List.map_insertionSort (fun a b => key b ≤ key a) (fun a b => key' b ≤ key' a) f _
    fun a _ b _ => by rw [hf, hf]]
  refine congrArg _ (congrArg _ (List.filter_congr fun a _ => ?_))
  rw [Function.comp_apply, hf]

/-- A walk is by the key alone. -/
theorem map_walk {β : Type} {key' : β → κ} {f : α → β} (hf : ∀ a, key' (f a) = key a) :
    ∀ {sources : List (List α)} {before : κ}, (walk key limit before sources).map (·.map f)
      = walk key' limit before (sources.map (·.map f))
  | [], _ => rfl
  | rows :: sources, before => by
      rw [List.map_cons, walk_cons, walk_cons, List.map_cons, ← map_page hf, List.getLast?_map]
      rcases (page key limit before rows).getLast? with _ | b
      · rfl
      · refine congrArg _ ((map_walk hf).trans ?_)
        rw [Option.map_some, Option.elim_some, hf]

/-! ## Rows that stay as they are -/

/-- With pages of one row, no key is read twice. -/
theorem pairwise_walk_one :
    (walk key 1 before sources).flatten.Pairwise fun a b => key b < key a := by
  refine pairwise_walk fun rows _ before => ?_
  have hlen : (page key 1 before rows).length ≤ 1 := length_page_le
  match hp : page key 1 before rows with
  | [] => exact List.Pairwise.nil
  | [a] => exact List.pairwise_singleton _ a
  | a :: b :: l =>
    rw [hp, List.length_cons, List.length_cons] at hlen
    omega

/-- **Rows that stay are all read**, each once and the highest first, where keys are distinct. -/
theorem walk_perm {n : ℕ} (hlimit : 0 < limit) (hkeys : (rows.map key).Nodup)
    (hbefore : ∀ a ∈ rows, key a < before) (hn : rows.length < n) :
    (walk key limit before (List.replicate n rows)).flatten.Perm rows := by
  have hnodup : (walk key limit before (List.replicate n rows)).flatten.Nodup :=
    (pairwise_walk fun rows' h _ => by
      obtain rfl := List.eq_of_mem_replicate h
      exact pairwise_page_lt hkeys).imp fun h heq => h.ne (congrArg key heq).symm
  have hsub : (walk key limit before (List.replicate n rows)).flatten ⊆ rows := fun a ha => by
    obtain ⟨-, rows', hrows', hmem⟩ := mem_walk_flatten ha
    exact List.eq_of_mem_replicate hrows' ▸ hmem
  refine (List.perm_ext_iff_of_nodup hnodup hkeys.of_map).mpr fun a =>
    ⟨fun h => hsub h, fun ha => ?_⟩
  rcases mem_walk hlimit (fun rows' h => List.eq_of_mem_replicate h ▸ hkeys)
    (fun rows' h => List.eq_of_mem_replicate h ▸ ha) (hbefore a ha) with h | ⟨hlen, hfull, -⟩
  · exact h
  -- as many full pages would hold more rows than there are
  · have hcount : (walk key limit before (List.replicate n rows)).flatten.length = n * limit := by
      rw [List.length_flatten, List.map_congr_left hfull, List.map_const', hlen,
        List.length_replicate, List.sum_replicate_nat]
    have hle := hnodup.length_le_of_subset hsub
    have hmul : n * 1 ≤ n * limit := Nat.mul_le_mul_left n hlimit
    omega

/-- **Pages of any size read all rows if and only if no two have one key.** -/
theorem walk_perm_iff {n : ℕ} (hbefore : ∀ a ∈ rows, key a < before) (hn : rows.length < n) :
    (∀ limit, 0 < limit → (walk key limit before (List.replicate n rows)).flatten.Perm rows)
      ↔ (rows.map key).Nodup := by
  constructor
  · intro h
    have hone : ((walk key 1 before (List.replicate n rows)).flatten.map key).Nodup :=
      List.pairwise_map.mpr (pairwise_walk_one.imp fun h => h.ne')
    exact ((h 1 one_pos).map key).nodup_iff.mp hone
  · exact fun hkeys limit hlimit => walk_perm hlimit hkeys hbefore hn

/-! ## A page without holes -/

section Unbroken

variable {key : α → ℤ} {limit : ℕ} {before : ℤ} {rows rows' : List α}

/-- The keys of a page go down one by one from where it begins. -/
def Unbroken (key : α → ℤ) (before : ℤ) (p : List α) : Prop :=
  p.map key = (List.range p.length).map fun i : ℕ => before - 1 - i

theorem Unbroken.mem_keys {p : List α} (h : Unbroken key before p) {k : ℤ} :
    k ∈ p.map key ↔ before - p.length ≤ k ∧ k < before := by
  rw [h, List.mem_map]
  constructor
  · rintro ⟨i, hi, rfl⟩
    have := List.mem_range.mp hi
    omega
  · rintro ⟨hle, hlt⟩
    exact ⟨(before - 1 - k).toNat, List.mem_range.mpr (by omega), by omega⟩

theorem Unbroken.head {p : List α} {a : α} (h : Unbroken key before p) (hhead : p.head? = some a) :
    key a = before - 1 := by
  obtain ⟨l, rfl⟩ := List.head?_eq_some_iff.mp hhead
  have hfirst := congrArg List.head? h
  rw [List.length_cons, List.range_succ_eq_map] at hfirst
  have hfirst : key a = before - 1 - ((0 : ℕ) : ℤ) := Option.some.inj hfirst
  omega

/-- **A page without holes does not change** while its rows stay and no other row comes to have the
key of one, if it is full or reaches to the bottom. -/
theorem page_unbroken (hp : Unbroken key before (page key limit before rows))
    (hend : (page key limit before rows).length = limit
      ∨ ∀ a ∈ rows', before - (page key limit before rows).length ≤ key a)
    (hstay : page key limit before rows ⊆ rows') (hnodup : rows'.Nodup)
    (hsole : ∀ a ∈ rows', ∀ b ∈ page key limit before rows, key a = key b → a = b) :
    page key limit before rows' = page key limit before rows := by
  have hlen : (page key limit before rows).length ≤ limit := length_page_le
  generalize page key limit before rows = p at hp hend hstay hsole hlen
  have hkeys : (p.map key).Nodup := by
    rw [hp]
    exact List.nodup_range.map fun i j h => by
      have h : before - 1 - (i : ℤ) = before - 1 - j := h
      omega
  have hnodup' : (page key limit before rows').Nodup :=
    (((List.perm_insertionSort _ _).nodup_iff).mpr (hnodup.filter _)).sublist
    (List.take_sublist _ _)
  -- what is on the new page, and not below the old one, is on the old one
  have hold : ∀ a ∈ page key limit before rows', before - p.length ≤ key a → a ∈ p := by
    intro a ha hle
    obtain ⟨b, hb, hkey⟩ := List.mem_map.mp (hp.mem_keys.mpr ⟨hle, (mem_page ha).2⟩)
    exact hsole a (mem_page ha).1 b hb hkey.symm ▸ hb
  have hsub : p ⊆ page key limit before rows' := by
    intro a ha
    by_contra hnot
    have hbounds := hp.mem_keys.mp (List.mem_map_of_mem ha)
    obtain ⟨hfull, hle⟩ := full_of_not_mem (hstay ha) hbounds.2 hnot
    have hlt := (List.nodup_cons.mpr ⟨hnot, hnodup'⟩).length_le_of_subset
      (List.cons_subset.mpr ⟨ha, fun b hb => hold b hb (hbounds.1.trans (hle b hb))⟩)
    rw [List.length_cons] at hlt
    omega
  have hsup : page key limit before rows' ⊆ p := by
    intro a ha
    by_cases hle : before - p.length ≤ key a
    · exact hold a ha hle
    · rcases hend with hfull | hbottom
      · have hnot : a ∉ p := fun h => hle (hp.mem_keys.mp (List.mem_map_of_mem h)).1
        have hgt := (List.nodup_cons.mpr ⟨hnot, hkeys.of_map⟩).length_le_of_subset
          (List.cons_subset.mpr ⟨ha, hsub⟩)
        have hlen : (page key limit before rows').length ≤ limit := length_page_le
        rw [List.length_cons] at hgt
        omega
      · exact absurd (hbottom a (mem_page ha).1) hle
  have hsorted : p.Pairwise fun a b => key b ≤ key a := by
    have hmap : (p.map key).Pairwise fun a b => b ≤ a := by
      rw [hp, List.pairwise_map]
      exact List.pairwise_lt_range.imp fun h => by omega
    exact List.pairwise_map.mp hmap
  refine List.Perm.eq_of_pairwise (fun a b ha hb hab hba => ?_) pairwise_page hsorted
    ((List.perm_ext_iff_of_nodup hnodup' hkeys.of_map).mpr fun a =>
      ⟨fun h => hsup h, fun h => hsub h⟩)
  exact hsole a (mem_page ha).1 b hb (le_antisymm hba hab)

end Unbroken

/-! ## Pages by number -/

/-- `LIMIT size OFFSET i * size`. -/
def chunk (size : ℕ) (l : List α) (i : ℕ) : List α := (l.drop (i * size)).take size

theorem chunk_succ {size : ℕ} (l : List α) (i : ℕ) :
    chunk size l (i + 1) = chunk size (l.drop size) i := by
  rw [chunk, chunk, List.drop_drop, Nat.succ_mul, Nat.add_comm]

/-- **Enough pages are the list.** -/
theorem flatten_chunks {size : ℕ} : ∀ {n : ℕ} {l : List α}, l.length ≤ n * size →
    ((List.range n).map (chunk size l)).flatten = l
  | 0, l, h => by
      rw [Nat.zero_mul, Nat.le_zero, List.length_eq_zero_iff] at h
      rw [h]
      rfl
  | n + 1, l, h => by
      have hrest : (l.drop size).length ≤ n * size := by
        rw [List.length_drop]
        rw [Nat.succ_mul] at h
        omega
      have hnext : (List.range n).map (chunk size l ∘ Nat.succ)
          = (List.range n).map (chunk size (l.drop size)) :=
        List.map_congr_left fun i _ => chunk_succ l i
      rw [List.range_succ_eq_map, List.map_cons, List.map_map, hnext, List.flatten_cons,
        flatten_chunks hrest, chunk, Nat.zero_mul, List.drop_zero, List.take_append_drop]

/-- **Reading enough pages, row by row, is reading the list**, and fails where that would. -/
theorem mapM_chunks {ε β : Type} (f : α → Except ε β) {size n : ℕ} {l : List α}
    (h : l.length ≤ n * size) :
    List.flatten <$> (List.range n).mapM (fun i => (chunk size l i).mapM f) = l.mapM f := by
  have hflatten : ∀ ls : List (List α), List.flatten <$> ls.mapM (fun l => l.mapM f)
      = ls.flatten.mapM f := by
    intro ls
    induction ls with
    | nil => rfl
    | cons l ls ih =>
      rw [List.mapM_cons, List.flatten_cons, List.mapM_append, ← ih]
      generalize (ls.mapM fun l => l.mapM f : Except ε (List (List β))) = rest
      rcases l.mapM f with e | bs
      · rfl
      · rcases rest with e | bss
        · rfl
        · rfl
  refine Eq.trans ?_ ((hflatten ((List.range n).map (chunk size l))).trans ?_)
  · rw [List.mapM_map]
    rfl
  · rw [flatten_chunks h]

end Paging
