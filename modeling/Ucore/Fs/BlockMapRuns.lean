/-
  The functions on block maps do not panic.

  The accounts of the file system being right, `sfs_bmap_load_nolock` returns if the index is at
  most the number of blocks, at most 1035, and the entries of the blocks are there
  (`bmapLoad_runs`); `sfs_bmap_truncate_nolock` returns if there is a block (`bmapTruncate_runs`).
-/
import Ucore.Fs.BlockMap

namespace Ucore

variable {dev : Device} {I : Finset ℕ} {E : Set ℕ} {s t : Sfs} {i j k b n : ℕ}

theorem Acct.blockAlloc_runs (h : Acct I E s) : Code.Runs (blockAlloc dev) s :=
  Ucore.blockAlloc_runs h.geo h.count

theorem failedCleanup_runs (hg : s.blocks ≤ s.freemap.nbits) {entp ent : ℕ} {e : Errno}
    (hu : s.Used ent) : Code.Runs (failedCleanup entp ent e) s := by
  unfold failedCleanup
  split
  · exact (blockFree_runs hg hu).bind fun _ _ _ => Code.Runs.throw _
  · exact Code.Runs.throw _

theorem bmapAddEntry_runs (h : Acct I E s) {entp ent : ℕ} (hu : s.Used ent) (hk : k < 1024) :
    Code.Runs (bmapAddEntry dev entp ent k) s := by
  refine h.blockAlloc_runs.attempt.bind fun r v h₁ => ?_
  obtain ⟨r', h₁, hr⟩ := Code.attempt_eq_some.1 h₁
  cases hr
  obtain ⟨b, rfl, hb, hs, ha, -⟩ | ⟨e, rfl, hf, -⟩ := blockAlloc_spec h h₁
  · have huv : v.Used ent := hs.used ent hu
    refine (wbuf_runs huv.1 huv.2.1 (by omega) (by omega)).attempt.bind fun r w h₂ => ?_
    obtain ⟨r', h₂, hr⟩ := Code.attempt_eq_some.1 h₂
    cases hr
    obtain ⟨rfl, -⟩ | ⟨e, n, rfl, -, rfl⟩ := wbuf_eq_some h₂
    · exact Code.Runs.pure _
    · have hub : v.Used b := ha.lent_used (Set.mem_insert b E)
      have hne : ent ≠ b := fun e => Sfs.Geometry.not_used_of_free hb (e ▸ hu)
      refine (blockFree_runs (s := v.wait n) ha.geo.bits hub).bind fun a x h₃ => ?_
      obtain ⟨-, -, rfl⟩ := (blockFree_iff (ha.wait n).geo.bits).1 h₃
      exact failedCleanup_runs (s := (v.wait n).give b) ha.geo.bits
        ((Sfs.used_give_iff (s := v.wait n) hub).2 ⟨huv, hne⟩)
  · obtain ⟨E', -, -, ha⟩ := hf.acct
    exact failedCleanup_runs ha.geo.bits (hf.same.used ent hu)

theorem bmapGetOut_runs (hg : s.blocks ≤ s.freemap.nbits) (h : b = 0 ∨ s.Used b) :
    Code.Runs (bmapGetOut b) s := ⟨.ok b, s, (bmapGetOut_iff hg).2 ⟨h, rfl, rfl⟩⟩

theorem Acct.data_zero_or_used (h : Acct I E s) (hi : i ∈ I) (hk : k < 1036) :
    s.bmap i k = 0 ∨ s.Used (s.bmap i k) :=
  or_iff_not_imp_left.2 (h.data_used hi hk)

theorem bmapGetDirect_runs (h : Acct I E s) (hc : s.cached i = true) (hk : k < 12)
    {create : Bool} : Code.Runs (bmapGetDirect dev i ⟨k, hk⟩ create) s := by
  have hi := h.cached i hc
  rw [bmapGetDirect, Code.runs_get_bind, ← bmap_direct hc hk]
  split
  · rename_i h0
    refine h.blockAlloc_runs.bind fun b v h₁ => ?_
    obtain ⟨b', hb', hb, hs, ha, -⟩ | ⟨e, he, -⟩ := blockAlloc_spec h h₁
    · cases hb'
      rw [Code.runs_modify_bind]
      exact bmapGetOut_runs (s := v.setDin i _) ha.geo.bits
        (.inr (ha.lent_used (Set.mem_insert b E)))
    · cases he
  · exact bmapGetOut_runs h.geo.bits (h.data_zero_or_used hi (by omega))

theorem bmapGetIndirect_runs (h : Acct I E s) (hc : s.cached i = true) (hk : ¬k < 12)
    (hk' : k < 1036) {create : Bool} : Code.Runs (bmapGetIndirect dev i (k - 12) create) s := by
  have hi := h.cached i hc
  have hdi := Acct.dinOf_of_cached hc
  rw [bmapGetIndirect, Code.runs_get_bind, bmapGetSub, bind_assoc, Code.runs_assert_bind]
  refine ⟨by omega, ?_⟩
  by_cases hn : (s.din i).indirect = 0
  · rw [hn, if_neg (not_not.2 rfl)]
    split
    · rw [pure_bind]
      dsimp only
      rw [if_neg (not_not.2 rfl)]
      exact bmapGetOut_runs h.geo.bits (.inl rfl)
    · rw [bind_assoc]
      refine h.blockAlloc_runs.bind fun ent v h₁ => ?_
      obtain ⟨ent', he, hent, hs, ha, -⟩ | ⟨e, he, -⟩ := blockAlloc_spec h h₁
      · cases he
        have hev : v.Used ent := ha.lent_used (Set.mem_insert ent E)
        refine (bmapAddEntry_runs ha hev (by omega)).bind fun p w h₂ => ?_
        obtain ⟨b, x, hp, hb, hsx, hax, -, rfl⟩ | ⟨e, x, hf, -, hx⟩ := bmapAddEntry_spec ha h₂
        · cases hp
          dsimp only
          rw [if_pos hent.1, Code.runs_assert_bind, Code.runs_modify_bind]
          exact ⟨rfl, bmapGetOut_runs (s := Sfs.setDin _ i _) hax.geo.bits
            (.inr (hax.lent_used (.inl rfl)))⟩
        · obtain ⟨E', -, -, hax⟩ := hf.acct
          cases (failedCleanup_new hax.geo.bits hent.1 hx).1
      · cases he
  · have hu := h.indirect_used hi (by rw [hdi]; exact hn)
    rw [hdi] at hu
    rw [if_pos hn, bind_assoc]
    refine (rbuf_runs hu.1 hu.2.1 (by omega) (by omega)).bind fun m v h₁ => ?_
    obtain ⟨rfl, hm | ⟨e, he, -⟩⟩ := rbuf_eq_some h₁
    · cases hm
      rw [Bytes.word_from', ← bmap_indirect hc hk hn]
      split
      · rw [pure_bind]
        dsimp only
        rw [if_neg (not_not.2 rfl)]
        exact bmapGetOut_runs (s := s.wait 1) h.geo.bits (h.data_zero_or_used hi hk')
      · refine (bmapAddEntry_runs (h.wait 1) hu (by omega)).bind fun p w h₂ => ?_
        obtain ⟨b, x, hp, hb, hsx, hax, -, rfl⟩ | ⟨e, x, -, -, hx⟩ :=
          bmapAddEntry_spec (h.wait 1) h₂
        · cases hp
          dsimp only
          rw [if_neg (not_not.2 rfl)]
          exact bmapGetOut_runs (s := Sfs.setBlock _ _ _) hax.geo.bits
            (.inr (hax.lent_used (Set.mem_insert b E)))
        · cases (failedCleanup_old hx).1
    · cases he

theorem bmapGet_runs (h : Acct I E s) (hc : s.cached i = true) (hk : k < 1036) {create : Bool} :
    Code.Runs (bmapGet dev i k create) s := by
  unfold bmapGet
  split
  · rename_i hd
    exact bmapGetDirect_runs h hc hd
  · rename_i hd
    rw [if_pos (by omega)]
    exact bmapGetIndirect_runs h hc hd hk

/-- **`sfs_bmap_load_nolock` returns.** -/
theorem bmapLoad_runs (h : Acct I E s) (hc : s.cached i = true) (hle : k ≤ (s.din i).blocks)
    (hk : k < 1036) (hw : k < (s.din i).blocks → s.bmap i k ≠ 0) :
    Code.Runs (bmapLoad dev i k) s := by
  have hi := h.cached i hc
  rw [bmapLoad, Code.runs_get_bind, Code.runs_assert_bind]
  refine ⟨hle, (bmapGet_runs h hc hk).bind fun b v h₁ => ?_⟩
  have hu : v.blocks ≤ v.freemap.nbits ∧ v.Used b := by
    by_cases ho : decide (k = (s.din i).blocks) = false ∨ s.bmap i k ≠ 0
    · obtain ⟨n, rfl, hb | ⟨e, he, -⟩⟩ := bmapGet_old h hc hk ho h₁
      · cases hb
        refine ⟨h.geo.bits, h.data_used hi hk ?_⟩
        by_cases hlt : k < (s.din i).blocks
        · exact hw hlt
        · have hkb : k = (s.din i).blocks := by omega
          exact ho.resolve_left (by simp [hkb])
      · cases he
    · simp only [not_or, Bool.not_eq_false, ne_eq, not_not] at ho
      rw [ho.1] at h₁
      obtain ⟨b', hb, hg⟩ | ⟨e, he, -⟩ := bmapGet_new h hc hk ho.2 h₁
      · cases hb
        exact ⟨hg.acct.geo.bits, hg.mapped.in_use⟩
      · cases he
  refine (assertInuse_runs hu.1 hu.2).bind fun _ w _ => ?_
  split
  · rw [Code.runs_modify_bind]
    exact Code.Runs.pure _
  · exact Code.Runs.pure _

theorem bmapFreeSub_runs (h : Acct I E s) (hc : s.cached i = true) (hk : ¬k < 12)
    (hk' : k < 1036) (hn : (s.din i).indirect ≠ 0) :
    Code.Runs (bmapFreeSub dev (s.din i).indirect (k - 12)) s := by
  have hi := h.cached i hc
  have hu := h.indirect_used hi (by rw [Acct.dinOf_of_cached hc]; exact hn)
  rw [Acct.dinOf_of_cached hc] at hu
  refine (assertInuse_runs h.geo.bits hu).bind fun a v h₁ => ?_
  obtain ⟨-, -, rfl⟩ := (assertInuse_iff h.geo.bits).1 h₁
  rw [Code.runs_assert_bind]
  refine ⟨by omega, (rbuf_runs hu.1 hu.2.1 (by omega) (by omega)).bind fun m w h₂ => ?_⟩
  obtain ⟨rfl, hm | ⟨e, he, -⟩⟩ := rbuf_eq_some h₂
  · cases hm
    rw [Bytes.word_from', ← bmap_indirect hc hk hn]
    split
    · rename_i h0
      refine (wbuf_runs (s := v.wait 1) hu.1 hu.2.1 (by omega) (by omega)).bind fun a w h₃ => ?_
      obtain ⟨-, rfl⟩ | ⟨e, n, he, -⟩ := wbuf_eq_some h₃
      · exact blockFree_runs (s := Sfs.setBlock _ _ _) h.geo.bits (h.data_used hi hk' h0)
      · cases he
    · exact Code.Runs.pure _
  · cases he

theorem bmapFree_runs (h : Acct I E s) (hc : s.cached i = true) :
    Code.Runs (bmapFree dev i k) s := by
  rw [bmapFree, Code.runs_get_bind]
  split
  · rename_i hk
    rw [← bmap_direct hc hk]
    split
    · rename_i h0
      refine (blockFree_runs h.geo.bits (h.data_used (h.cached i hc) (by omega) h0)).bind
        fun _ _ _ => ⟨_, _, Code.modify_eq_some.2 ⟨rfl, rfl⟩⟩
    · exact Code.Runs.pure _
  · rename_i hk
    split
    · rename_i hk'
      exact bmapFreeSub_runs h hc hk (by omega) hk'.2
    · exact Code.Runs.pure _

/-- **`sfs_bmap_truncate_nolock` returns.** -/
theorem bmapTruncate_runs (h : Acct I E s) (hc : s.cached i = true)
    (hb : (s.din i).blocks ≠ 0) : Code.Runs (bmapTruncate dev i) s := by
  rw [bmapTruncate, Code.runs_get_bind, Code.runs_assert_bind]
  exact ⟨hb, (bmapFree_runs h hc).bind fun _ _ _ => ⟨_, _, Code.modify_eq_some.2 ⟨rfl, rfl⟩⟩⟩

end Ucore
