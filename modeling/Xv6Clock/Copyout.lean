/-
  File:      Xv6Clock/Copyout.lean
  Subject:   What `copyout` (vm.c) does to the bytes of an address space.

  It goes through the frames, so it stores raw bytes, whether the page is encrypted or not. If no
  two pages have one frame, the bytes from `va` on are those of the buffer, and all others stay.
-/
import Xv6Clock.Exec
import Xv6Clock.Logical

namespace Xv6Clock

/-- The stored byte at `va`: what user code would read there if the page were not encrypted. -/
def Vm.rbyte (s : Vm) (va : Nat) : Byte := s.m.mem (pteFrame (s.pd.pteAt (vpn va))) (va % pgSize)

/-- The page `uva2ka` finds. -/
theorem uva2ka_some {pd : PgDir} {va : Nat} {f : Frame} (h : uva2ka pd va = .ok (some f)) :
    mapped (pd.pteAt (vpn va)) = true ∧ has (pd.pteAt (vpn va)) pteU = true ∧
      f = pteFrame (pd.pteAt (vpn va)) := by
  unfold uva2ka at h
  split at h
  · cases h
  · rename_i pte hw
    obtain ⟨rfl, -⟩ := PgDir.walk_some hw
    split at h
    · cases h
    · rename_i hm
      split at h
      · cases h
      · rename_i hU
        cases h
        exact ⟨by simpa using hm, by simpa using hU, rfl⟩

section
variable {s s' : Vm}

/-- Bytes stored in one page, from `va` on. -/
theorem rbyte_chunk (hone : ∀ f, s.pd.holds f ≤ 1) {c : Nat} (va : Nat) (bs : List Byte)
    (hva : va < kernBase) (hm : mapped (s.pd.pteAt (vpn va)) = true)
    (hfit : va % pgSize + bs.length ≤ pgSize) (hc : c < kernBase)
    (hmc : mapped (s.pd.pteAt (vpn c)) = true) :
    Vm.rbyte ⟨s.m.setPage (pteFrame (s.pd.pteAt (vpn va)))
      (overlay (s.m.mem (pteFrame (s.pd.pteAt (vpn va)))) (va % pgSize) bs), s.pd⟩ c =
      if va ≤ c ∧ c < va + bs.length then bs.getD (c - va) 0 else s.rbyte c := by
  unfold kernBase at hva hc
  unfold pgSize at *
  unfold Vm.rbyte
  dsimp only
  by_cases hv : vpn c = vpn va
  · have hsame : c / 4096 = va / 4096 := by
      unfold vpn at hv
      omega
    rw [hv, Kmem.setPage_mem_self]
    unfold overlay pgSize
    by_cases hin : va ≤ c ∧ c < va + bs.length
    · rw [if_pos hin, if_pos (by omega), show c % 4096 - va % 4096 = c - va by omega]
    · rw [if_neg hin, if_neg (by omega)]
  · have hne := PgDir.frame_ne hone (u := vpn c) (v := vpn va) (by unfold vpn; omega)
      (by unfold vpn; omega) hmc hm hv
    have hout : ¬ (va ≤ c ∧ c < va + bs.length) := fun hin => hv (by unfold vpn; omega)
    rw [if_neg hout, Kmem.setPage_mem_ne _ _ hne]

/-- **The bytes after `copyout`.** -/
theorem copyoutLoop_rbyte (hone : ∀ f, s.pd.holds f ≤ 1) {n : Nat} :
    ∀ {s' : Vm} {va : Nat} {buf : List Byte}, buf.length ≤ n → va + buf.length ≤ kernBase →
    copyoutLoop n s va buf = .ok (0, s') → s'.pd = s.pd ∧
      ∀ c, c < kernBase → mapped (s.pd.pteAt (vpn c)) = true →
        s'.rbyte c = if va ≤ c ∧ c < va + buf.length then buf.getD (c - va) 0 else s.rbyte c := by
  induction n generalizing s with
  | zero =>
    intro s' va buf hn _ h
    cases h
    refine ⟨rfl, fun c _ _ => ?_⟩
    rw [if_neg (by omega)]
  | succ n ih =>
    intro s' va buf hn hlow h
    unfold copyoutLoop at h
    split at h
    · rename_i h0
      cases h
      refine ⟨rfl, fun c _ _ => ?_⟩
      rw [if_neg (by omega)]
    rename_i h0
    obtain ⟨o, h1, h2⟩ := Lib.bind_eq_ok.mp h
    cases o with
    | none => cases h2
    | some f =>
      obtain ⟨hm, hU, rfl⟩ := uva2ka_some h1
      rw [vpn_pgRoundDown] at hm h2
      have hk : kernBase = 2 ^ 31 := rfl
      have hoff : va - pgRoundDown va = va % pgSize := by
        unfold pgRoundDown pgSize
        omega
      have hnext : addU (pgRoundDown va) pgSize = va / 4096 * 4096 + 4096 := by
        unfold addU pgRoundDown pgSize
        omega
      dsimp only at h2
      rw [hoff, hnext] at h2
      generalize hkn : min (pgSize - va % pgSize) buf.length = k at h2
      have hpg : pgSize = 4096 := rfl
      have hmod : va % pgSize = va % 4096 := rfl
      have htake : (buf.take k).length = k := by
        rw [List.length_take]
        omega
      have hdrop : (buf.drop k).length = buf.length - k := List.length_drop
      obtain ⟨hpd, hbytes⟩ := ih (by exact hone) (by omega) (by omega) h2
      refine ⟨hpd, fun c hc hmc => ?_⟩
      rw [hbytes c hc hmc, rbyte_chunk hone _ _ (by omega) hm (by omega) hc hmc, htake, hdrop]
      -- the rest, the chunk, and what is left alone
      by_cases h3 : va / 4096 * 4096 + 4096 ≤ c ∧
          c < va / 4096 * 4096 + 4096 + (buf.length - k)
      · rw [if_pos h3, if_pos (by omega), List.getD_eq_getElem?_getD, List.getD_eq_getElem?_getD,
          List.getElem?_drop, show k + (c - (va / 4096 * 4096 + 4096)) = c - va by omega]
      · rw [if_neg h3]
        by_cases h4 : va ≤ c ∧ c < va + k
        · rw [if_pos h4, if_pos (by omega), List.getD_eq_getElem?_getD,
            List.getD_eq_getElem?_getD, List.getElem?_take, if_pos (by omega)]
        · rw [if_neg h4, if_neg (by omega)]

end

end Xv6Clock
