import Permanode.Ledger.Finality
import Permanode.Queries.Pages

/-!
# Queries/FinalPages — pages that may be cached

`get_blocks` (`permanode/src/serve.rs`) marks a page as final if its newest block has
`FINAL_CONFIRMATIONS` and the page is full or ends at genesis.  Where the node replaces no block
that deep, the blocks of such a page without holes are the same at every later moment
(`getBlocks_final`): none goes, none comes, whatever the threads do meanwhile.
-/

namespace Permanode

open Prog

namespace Db

variable {db : Db}

theorem nodup_canonicalIdents (db : Db) : (db.canonicalSummaries.map BlockSummary.ident).Nodup := by
  rw [canonicalSummaries, List.map_map]
  refine List.pairwise_map.mpr ((db.blocks.unique.filter _).imp fun h heq => ?_)
  have heq : (_, _) = (_, _) := heq
  obtain ⟨hh, hs⟩ := Prod.mk.inj heq
  simp [Row.clash, blockSummary] at h hh hs
  exact h.2 hh hs

/-- A page by height and hash. -/
theorem map_ident_recentBlocks (limit : ℕ) (before : Option ℤ) :
    (db.recentBlocks limit before).map BlockSummary.ident
      = Paging.page identKey limit (before.getD maxI64)
        (db.canonicalSummaries.map BlockSummary.ident) := by
  rw [recentBlocks_eq]
  exact Paging.map_page identKey_ident

end Db

/-- The number of blocks of a page. -/
def pageLimit (limit : Option ℤ) : ℕ := (max 1 (min 200 (limit.getD 25))).toNat

theorem getBlocks_fst {db : Db} {limit before : Option ℤ} :
    (getBlocks db limit before).1 = db.recentBlocks (pageLimit limit) before := rfl

/-- **What the flag of a page says**: it is full or ends at genesis, and is old enough. -/
theorem getBlocks_flag {db : Db} {limit : Option ℤ} {before : ℤ}
    (h : (getBlocks db limit (some before)).2 = true) :
    ((db.recentBlocks (pageLimit limit) (some before)).length = pageLimit limit
        ∨ ∃ b, (db.recentBlocks (pageLimit limit) (some before)).getLast? = some b ∧ b.height = 0)
      ∧ ∃ b t, (db.recentBlocks (pageLimit limit) (some before)).head? = some b
        ∧ db.indexedTip = some t ∧ (b.height : ℤ) + 17 ≤ t := by
  obtain ⟨hpage, hnewest⟩ := Bool.and_eq_true_iff.mp h
  obtain ⟨-, hpage⟩ := Bool.and_eq_true_iff.mp hpage
  constructor
  · refine (of_decide_eq_true hpage).imp (fun hlen => ?_) fun hlast => ?_
    · have hcast : ((pageLimit limit : ℕ) : ℤ) = max 1 (min 200 (limit.getD 25)) :=
        Int.toNat_of_nonneg (le_trans (by decide) (le_max_left _ _))
      exact Int.ofNat_inj.mp (hlen.trans hcast.symm)
    · obtain ⟨b, hb, hzero⟩ := (Option.any_eq_true _ _).mp hlast
      exact ⟨b, hb, of_decide_eq_true hzero⟩
  · obtain ⟨b, hb, htip⟩ := (Option.any_eq_true _ _).mp hnewest
    obtain ⟨t, ht, hle⟩ := (Option.any_eq_true _ _).mp htip
    have hle : finalConfirmations ≤ t - b.height + 1 := of_decide_eq_true hle
    rw [finalConfirmations] at hle
    exact ⟨b, t, hb, ht, by omega⟩

variable {N : Noid} {cfg : Config} {allow : ∀ q : Query, q.Answer → Prop} {final : ℕ}
  {chain : ℕ → String}

/-- **A final page without holes never changes.**  Where the node's chain is settled from 17 blocks
below the tip on record downwards, the same request is answered with the same blocks at every later
moment of a run. -/
theorem getBlocks_final (hallow : ∀ q r, allow q r → SettledTo final chain q r) {db₀ : Db}
    (h₀ : ∀ b ∈ db₀.blocks.rows, b.height ≤ final → db₀.isCanonical b.id → b.hash = chain b.height)
    {tr : List (Db × Txn × Db)} {c : Prog.Config Query Query.Answer Db Txn String Thread}
    (h : Prog.Run (Job N cfg) allow (Txn.exec N cfg) (Config.idle db₀) tr c)
    {x : Db × Txn × Db} (hx : x ∈ tr) {limit : Option ℤ} {before : ℤ}
    (htip : ∀ t, x.1.indexedTip = some t → t ≤ final + 17)
    (hpage : (getBlocks x.1 limit (some before)).2 = true)
    (hholes : Paging.Unbroken BlockSummary.key before (getBlocks x.1 limit (some before)).1) :
    (getBlocks c.store limit (some before)).1.map BlockSummary.ident
      = (getBlocks x.1 limit (some before)).1.map BlockSummary.ident := by
  obtain ⟨⟨hfinal, -⟩, htr⟩ := run_final hallow h₀ h
  obtain ⟨hfinal₁, hkeeps⟩ := htr x hx
  obtain ⟨hend, newest, t, hhead, htip₁, hdeep⟩ := getBlocks_flag hpage
  rw [getBlocks_fst] at hholes
  have hlow : before ≤ final + 1 := by
    have hnewest : (newest.height : ℤ) = before - 1 := hholes.head hhead
    have := htip t htip₁
    omega
  have hmap := x.1.map_ident_recentBlocks (pageLimit limit) (some before)
  rw [getBlocks_fst, getBlocks_fst, Db.map_ident_recentBlocks, hmap, Option.getD_some]
  rw [Option.getD_some] at hmap
  -- a block of the page is canonical, and settled
  have hpageRow : ∀ a ∈ Paging.page identKey (pageLimit limit) before
      (x.1.canonicalSummaries.map BlockSummary.ident), x.1.HasCanonical a ∧ a.1 ≤ final := by
    intro a ha
    obtain ⟨hmem, hlt⟩ := Paging.mem_page ha
    have hlt : (a.1 : ℤ) < before := hlt
    exact ⟨Db.mem_canonicalIdents.mp hmem, by omega⟩
  refine Paging.page_unbroken ?_ ?_ (fun a ha => ?_) c.store.nodup_canonicalIdents
    fun a ha b hb hkey => ?_
  · rw [← hmap, Paging.Unbroken, List.map_map, List.length_map]
    exact hholes
  · rw [← hmap, List.length_map]
    refine hend.imp id ?_
    rintro ⟨b, hlast, hzero⟩ a -
    have hkey := (hholes.mem_keys.mp (List.mem_map_of_mem (List.mem_of_getLast? hlast))).1
    have hzero : b.key = 0 := congrArg Nat.cast hzero
    have hpos : (0 : ℤ) ≤ identKey a := Int.natCast_nonneg _
    omega
  · obtain ⟨⟨r, hr, hc, hh, hs⟩, hle⟩ := hpageRow a ha
    obtain ⟨r', hr', -, hh', hs', hc'⟩ := hkeeps r hr (hh.trans_le hle) hc
    exact Db.mem_canonicalIdents.mpr ⟨r', hr', hc', hh'.trans hh, hs'.trans hs⟩
  · obtain ⟨⟨r, hr, hc, hh, hs⟩, hle⟩ := hpageRow b hb
    obtain ⟨r', hr', hc', hh', hs'⟩ := Db.mem_canonicalIdents.mp ha
    have hsame : a.1 = b.1 := Int.ofNat_inj.mp hkey
    refine Prod.ext hsame ?_
    rw [← hs', ← hs, hfinal r' hr' (hh'.trans_le (hsame.trans_le hle)) hc',
      hfinal₁ r hr (hh.trans_le hle) hc, hh', hh, hsame]

/-- A node whose blocks are named by their heights, the top one also by a mark. -/
def markedChain (n : ℕ) (mark : String) : List BlockDetailsInfo :=
  (List.range n).map (fun k => bareBlock k (Nat.repr k) "") ++ [bareBlock n (Nat.repr n ++ mark) ""]

/-- A poll of the chain up to height 1, and one of the chain up to height 18. -/
def deepStints : List (Stint Query Query.Answer Db Txn String Thread) :=
  [⟨.indexer, pollOnce Noid.sample {}, fun _ => chainAnswers (markedChain 1 "") 1, 60⟩,
    ⟨.indexer, pollOnce Noid.sample {}, fun _ => chainAnswers (markedChain 18 "") 2, 400⟩]

/-- The archive of heights 1 to 18. -/
def deepDb : Db := playAll (Txn.exec Noid.sample {}) deepStints Db.empty

/-- The poll that finds the top block replaced. -/
def topStints : List (Stint Query Query.Answer Db Txn String Thread) :=
  [⟨.indexer, pollOnce Noid.sample {}, fun _ => chainAnswers (markedChain 18 "b") 3, 400⟩]

theorem run_topStints : Prog.Run (Job Noid.sample {}) (SettledTo 1 Nat.repr)
    (Txn.exec Noid.sample {}) (Config.idle deepDb)
    (traceAll (Txn.exec Noid.sample {}) topStints deepDb)
    (Config.idle (playAll (Txn.exec Noid.sample {}) topStints deepDb)) := by
  refine run_playAll deepDb ?_
  simp only [topStints, List.forall_mem_cons]
  exact ⟨⟨.poll, fun _ => chainAnswers_settled _ (by decide +kernel)⟩, nofun⟩

theorem topTrace_ne_nil : traceAll (Txn.exec Noid.sample {}) topStints deepDb ≠ [] := by
  decide +kernel

/-- The first transaction of that poll. -/
def topStep : Db × Txn × Db :=
  (traceAll (Txn.exec Noid.sample {}) topStints deepDb).head topTrace_ne_nil

/-- The page of block 1 is final, and stays. -/
theorem getBlocks_final_top :
    (getBlocks topStep.1 (some 1) (some 2)).2 = true
      ∧ (getBlocks (playAll (Txn.exec Noid.sample {}) topStints deepDb) (some 1) (some 2)).1.map
        BlockSummary.ident = (getBlocks topStep.1 (some 1) (some 2)).1.map BlockSummary.ident := by
  have htip : topStep.1.indexedTip = some 18 := by decide +kernel
  have hpage : (getBlocks topStep.1 (some 1) (some 2)).2 = true := by decide +kernel
  have hholes : Paging.Unbroken BlockSummary.key 2 (getBlocks topStep.1 (some 1) (some 2)).1 := by
    unfold Paging.Unbroken
    decide +kernel
  refine ⟨hpage, getBlocks_final (fun _ _ h => h) ?_ run_topStints (List.head_mem topTrace_ne_nil)
    (fun t ht => ?_) hpage hholes⟩
  · decide +kernel
  · obtain rfl := Option.some.inj (htip.symm.trans ht)
    decide

end Permanode
