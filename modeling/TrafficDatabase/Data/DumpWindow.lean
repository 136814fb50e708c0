import TrafficDatabase.Data.DataBlockBuffer
import TrafficDatabase.Data.IndexBlockBuffer

/-!
# The window of the dump threads

A dump thread compares the block a writer has published, known modulo the disk, with the
ends of a window of two laps of the buffer that ends with the block of its slot, or with the
block of the delay after it.  Within one lap of the disk from the left end of the window the
comparison is the one of the blocks themselves (`dumpWindow_exact`).
-/

namespace TrafficDatabase

namespace DataBlockBuffer

variable {cfg : DataBlockConfig} {buf : DataBlockBuffer} {slot i n p : ℕ}

theorem checkRSS_eq (hslot : buf.blockDiskId slot = n % cfg.diskBlockNum)
    (hwriter : buf.diskWriteIds.getD i 0 = p % cfg.diskBlockNum) :
    buf.checkRSS cfg slot i = true ↔
      OutsideWindow (((n + cfg.delayedBlockNum) % cfg.diskBlockNum + cfg.diskBlockNum -
          cfg.totalBlockNum * 2) % cfg.diskBlockNum)
        ((n + cfg.delayedBlockNum) % cfg.diskBlockNum) (p % cfg.diskBlockNum) := by
  simp only [checkRSS, decide_eq_true_eq]
  rw [hslot, hwriter, Nat.mod_add_mod]

/-- A writer whose published block is outside the window is past it. -/
theorem lt_of_checkRSS (hpos : 0 < cfg.totalBlockNum)
    (hdisk : cfg.totalBlockNum * 2 < cfg.diskBlockNum)
    (hslot : buf.blockDiskId slot = n % cfg.diskBlockNum)
    (hwriter : buf.diskWriteIds.getD i 0 = p % cfg.diskBlockNum)
    (hfrom : n + cfg.delayedBlockNum ≤ p + cfg.totalBlockNum * 2)
    (h : buf.checkRSS cfg slot i = true) : n + cfg.delayedBlockNum < p :=
  TrafficDatabase.lt_of_outsideWindow (by omega) hdisk hfrom ((checkRSS_eq hslot hwriter).mp h)

theorem checkRSS_iff (hpos : 0 < cfg.totalBlockNum)
    (hdisk : cfg.totalBlockNum * 2 < cfg.diskBlockNum)
    (hslot : buf.blockDiskId slot = n % cfg.diskBlockNum)
    (hwriter : buf.diskWriteIds.getD i 0 = p % cfg.diskBlockNum)
    (hfrom : n + cfg.delayedBlockNum ≤ p + cfg.totalBlockNum * 2)
    (hto : p + cfg.totalBlockNum * 2 < n + cfg.delayedBlockNum + cfg.diskBlockNum) :
    buf.checkRSS cfg slot i = true ↔ n + cfg.delayedBlockNum < p := by
  rw [checkRSS_eq hslot hwriter]
  exact outsideWindow_iff_lt (by omega) hdisk hfrom hto

theorem directCheckRSS_iff (hpos : 0 < cfg.totalBlockNum)
    (hdisk : cfg.totalBlockNum * 2 < cfg.diskBlockNum)
    (hslot : buf.blockDiskId slot = n % cfg.diskBlockNum)
    (hwriter : buf.diskWriteIds.getD i 0 = p % cfg.diskBlockNum)
    (hfrom : n ≤ p + cfg.totalBlockNum * 2)
    (hto : p + cfg.totalBlockNum * 2 < n + cfg.diskBlockNum) :
    buf.directCheckRSS cfg slot i = true ↔ n ≤ p := by
  simp only [directCheckRSS, decide_eq_true_eq]
  rw [hslot, hwriter, Nat.mod_mod]
  exact outsideHalfOpen_iff_le (by omega) hdisk hfrom hto

end DataBlockBuffer

namespace IndexBlockBuffer

variable {cfg : IndexBlockConfig} {buf : IndexBlockBuffer} {slot i n p : ℕ}

theorem lt_of_checkThread (hpos : 0 < cfg.totalBlockNum)
    (hdisk : cfg.totalBlockNum * 2 < cfg.diskBlockNum)
    (hslot : buf.blockDiskId slot = n % cfg.diskBlockNum)
    (hwriter : buf.diskWriteIds.getD i 0 = p % cfg.diskBlockNum)
    (hfrom : n ≤ p + cfg.totalBlockNum * 2) (h : buf.checkThread cfg slot i = true) : n < p := by
  simp only [checkThread, decide_eq_true_eq, hslot, hwriter, Nat.mod_mod] at h
  exact TrafficDatabase.lt_of_outsideWindow (by omega) hdisk hfrom h

end IndexBlockBuffer

end TrafficDatabase
