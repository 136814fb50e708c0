import Mathlib.Logic.Function.Basic
import TrafficDatabase.Data.DataBlockBuffer

/-!
# The packet aggregator

`PacketAggregator` remembers, for every flow a reader has seen, the offset and
the time of the flow's last packet.  A packet that follows closely enough is
linked to that last packet: `addPacket` returns its offset.  For every other
packet it returns the largest 64-bit number, here `none`, and the reader makes
an index record for it.
-/

namespace TrafficDatabase

/-- The key of a flow; an address is the byte string of 4 or 16 bytes. -/
structure FlowMetadata where
  sourceAddress : List UInt8
  destinationAddress : List UInt8
  sourcePort : ℕ
  destinationPort : ℕ
deriving DecidableEq, Repr

structure FlowAttr where
  lastOffset : ℕ
  ts : ℕ
deriving DecidableEq, Repr

/-- The two thresholds are constants of the class. -/
structure PacketAggregator where
  offsetThreshold : ℕ
  tsThreshold : ℕ
  aggMap : FlowMetadata → Option FlowAttr

namespace PacketAggregator

def new (offsetThreshold tsThreshold : ℕ) : PacketAggregator :=
  { offsetThreshold, tsThreshold, aggMap := fun _ => none }

/-- `offset`, moved one disk further when it is not after `lastOffset`. -/
def orderedOffset (offset lastOffset diskSize : ℕ) : ℕ :=
  if offset ≤ lastOffset then offset + diskSize else offset

/-- The packet is too far after the flow's last one, in bytes or in time. -/
def Expired (agg : PacketAggregator) (last : FlowAttr) (offset ts diskSize : ℕ) : Prop :=
  orderedOffset offset last.lastOffset diskSize - last.lastOffset > agg.offsetThreshold ∨
    (ts + 2 ^ 64 - last.ts) % 2 ^ 64 > agg.tsThreshold

instance (agg : PacketAggregator) (last : FlowAttr) (offset ts diskSize : ℕ) :
    Decidable (agg.Expired last offset ts diskSize) :=
  inferInstanceAs (Decidable (_ ∨ _))

def addPacket (agg : PacketAggregator) (flow : FlowMetadata) (offset ts diskSize : ℕ) :
    Option ℕ × PacketAggregator :=
  let updated :=
    { agg with aggMap := Function.update agg.aggMap flow (some { lastOffset := offset, ts := ts }) }
  match agg.aggMap flow with
  | none => (none, updated)
  | some last =>
      if agg.Expired last offset ts diskSize then (none, updated)
      else (some last.lastOffset, updated)

variable {agg : PacketAggregator} {flow : FlowMetadata} {offset ts diskSize : ℕ}

@[simp] theorem addPacket_aggMap : (agg.addPacket flow offset ts diskSize).2.aggMap =
    Function.update agg.aggMap flow (some { lastOffset := offset, ts := ts }) := by
  simp only [addPacket]; split <;> [rfl; (split <;> rfl)]

@[simp] theorem addPacket_offsetThreshold :
    (agg.addPacket flow offset ts diskSize).2.offsetThreshold = agg.offsetThreshold := by
  simp only [addPacket]; split <;> [rfl; (split <;> rfl)]

@[simp] theorem addPacket_tsThreshold :
    (agg.addPacket flow offset ts diskSize).2.tsThreshold = agg.tsThreshold := by
  simp only [addPacket]; split <;> [rfl; (split <;> rfl)]

/-- A packet is linked exactly to the last packet of its flow, when that has not expired. -/
theorem addPacket_fst_eq_some {last : ℕ} :
    (agg.addPacket flow offset ts diskSize).1 = some last ↔
      ∃ attr, agg.aggMap flow = some attr ∧ ¬ agg.Expired attr offset ts diskSize ∧
        attr.lastOffset = last := by
  simp only [addPacket]
  cases hmap : agg.aggMap flow with
  | none => simp
  | some attr => by_cases h : agg.Expired attr offset ts diskSize <;> simp [h]

end PacketAggregator

end TrafficDatabase
