import TrafficDatabase.Flosis.AggBuffer

/-!
# The buffer of a flow

A `FlowBuffer` (`flowbuffer.hpp`) keeps the packets of a flow in five `AggBuffer`s: the
timestamps, the lengths, the headers, and the data of either direction.  `append_packet` writes
the data of an upstream packet to the buffers of both directions.

* `append_packet`, with what decides that a flow is over;
* `ParsedPacket.written`: what it writes to each of the five;
* `Stored`: what the five hold after packets that fit.
-/

namespace TrafficDatabase

/-- A packet as `readPacket` leaves it, the lengths being those of the data and the header. -/
structure ParsedPacket where
  is_upstream : Bool
  data : List UInt8
  header : List UInt8
  timestamp : ℕ
  is_fin : Bool
  is_rst : Bool
deriving DecidableEq

namespace ParsedPacket

def data_length (packet : ParsedPacket) : ℕ := packet.data.length

def header_length (packet : ParsedPacket) : ℕ := packet.header.length

end ParsedPacket

structure FlowBuffer where
  packet_count : ℕ
  last_update_time : ℕ
  timestamp_buffer : AggBuffer
  length_buffer : AggBuffer
  header_buffer : AggBuffer
  upstream_data_buffer : AggBuffer
  downstream_data_buffer : AggBuffer
  fin_seen : Bool
  rst_seen : Bool
  count_after_fin : ℕ
  finished : Bool

namespace FlowBuffer

/-- One of the five buffers. -/
inductive Part
  | timestamp
  | length
  | header
  | upstream
  | downstream
deriving DecidableEq

/-- As `writeFlowtoWBuffer` puts them. -/
def Part.all : List Part := [timestamp, length, header, upstream, downstream]

theorem Part.mem_all (p : Part) : p ∈ all := by
  cases p <;> decide

/-- The constructor sets neither `last_update_time` nor `finished`. The first is set before it
is read; the second is what the memory had. -/
def new (block_len : ℕ) (pool : Part → ℕ → Memory) (finished : Bool) : FlowBuffer where
  packet_count := 0
  last_update_time := 0
  timestamp_buffer := .new block_len (pool .timestamp 0)
  length_buffer := .new block_len (pool .length 0)
  header_buffer := .new block_len (pool .header 0)
  upstream_data_buffer := .new block_len (pool .upstream 0)
  downstream_data_buffer := .new block_len (pool .downstream 0)
  fin_seen := false
  rst_seen := false
  count_after_fin := 0
  finished := finished

/-- `none` when one of the writes leaves the blocks. -/
def append_packet (pool : Part → ℕ → Memory) (buffer : FlowBuffer) (packet : ParsedPacket) :
    Option FlowBuffer := do
  let timestamp_buffer ← AggBuffer.write (pool .timestamp) buffer.timestamp_buffer
    (toLittleEndian 8 packet.timestamp)
  let length_buffer ← AggBuffer.write (pool .length) buffer.length_buffer
    (toLittleEndian 2 packet.data_length)
  let header_buffer ← AggBuffer.write (pool .header) buffer.header_buffer packet.header
  let upstream_data_buffer ←
    (if packet.is_upstream then
      AggBuffer.write (pool .upstream) buffer.upstream_data_buffer packet.data
    else some buffer.upstream_data_buffer)
  let downstream_data_buffer ← AggBuffer.write (pool .downstream) buffer.downstream_data_buffer
    packet.data
  let fin_seen := buffer.fin_seen || packet.is_fin
  some {
    packet_count := (buffer.packet_count + 1) % 2 ^ 64
    last_update_time := packet.timestamp
    timestamp_buffer := timestamp_buffer
    length_buffer := length_buffer
    header_buffer := header_buffer
    upstream_data_buffer := upstream_data_buffer
    downstream_data_buffer := downstream_data_buffer
    fin_seen := fin_seen
    rst_seen := buffer.rst_seen || packet.is_rst
    count_after_fin := if fin_seen then (buffer.count_after_fin + 1) % 2 ^ 32
      else buffer.count_after_fin
    finished := buffer.finished }

def is_finished (buffer : FlowBuffer) : Bool :=
  (buffer.fin_seen && decide (4 ≤ buffer.count_after_fin)) || buffer.rst_seen || buffer.finished

def threshold_finished (buffer : FlowBuffer) (flow_buffer_time_threshold ts : ℕ) : Bool :=
  decide ((flow_buffer_time_threshold + buffer.last_update_time) % 2 ^ 64 ≤ ts)

def set_flags (buffer : FlowBuffer) (fin_seen rst_seen : Bool) (count_after_fin : ℕ) :
    FlowBuffer :=
  { buffer with
    fin_seen := fin_seen
    rst_seen := rst_seen
    count_after_fin := count_after_fin }

/-- The lengths of the five buffers and the eight bytes of `packet_count`, in 32 bits. -/
def get_totol_length (buffer : FlowBuffer) : ℕ :=
  (buffer.timestamp_buffer.total_len + buffer.length_buffer.total_len +
    buffer.header_buffer.total_len + buffer.upstream_data_buffer.total_len +
    buffer.downstream_data_buffer.total_len + 8) % 2 ^ 32

def part (buffer : FlowBuffer) : Part → AggBuffer
  | .timestamp => buffer.timestamp_buffer
  | .length => buffer.length_buffer
  | .header => buffer.header_buffer
  | .upstream => buffer.upstream_data_buffer
  | .downstream => buffer.downstream_data_buffer

end FlowBuffer

/-- What `append_packet` writes. -/
def ParsedPacket.written (packet : ParsedPacket) : FlowBuffer.Part → List UInt8
  | .timestamp => toLittleEndian 8 packet.timestamp
  | .length => toLittleEndian 2 packet.data_length
  | .header => packet.header
  | .upstream => if packet.is_upstream then packet.data else []
  | .downstream => packet.data

namespace FlowBuffer

/-- Every write ends before the end of the block after the one it begins in. -/
def Fits (buffer : FlowBuffer) (packet : ParsedPacket) : Prop :=
  ∀ p, (buffer.part p).total_len % (buffer.part p).block_len + (packet.written p).length <
    2 * (buffer.part p).block_len

instance (buffer : FlowBuffer) (packet : ParsedPacket) : Decidable (buffer.Fits packet) :=
  decidable_of_iff (∀ p ∈ Part.all, (buffer.part p).total_len % (buffer.part p).block_len +
      (packet.written p).length < 2 * (buffer.part p).block_len)
    ⟨fun h p => h p p.mem_all, fun h p _ => h p⟩

/-- The five hold these bytes. -/
def Stored (buffer : FlowBuffer) (bytes : Part → List UInt8) : Prop :=
  ∀ p, AggBuffer.Stored (buffer.part p) (bytes p)

variable {block_len : ℕ} {pool : Part → ℕ → Memory} {buffer : FlowBuffer}
  {packet : ParsedPacket} {bytes : Part → List UInt8}

theorem stored_new (hpos : 0 < block_len) (finished : Bool) :
    (new block_len pool finished).Stored fun _ => [] := by
  intro p
  cases p with
  | timestamp | length | header | upstream | downstream => exact AggBuffer.stored_new hpos _

theorem Stored.set_flags (h : buffer.Stored bytes) (fin_seen rst_seen : Bool)
    (count_after_fin : ℕ) : (buffer.set_flags fin_seen rst_seen count_after_fin).Stored bytes := by
  intro p
  have hpart := h p
  cases p with
  | timestamp | length | header | upstream | downstream => exact hpart

/-- A packet that fits is written behind those before it. -/
theorem append_packet_of_fits (pool : Part → ℕ → Memory) (hstored : buffer.Stored bytes)
    (hfits : buffer.Fits packet) :
    ∃ next, append_packet pool buffer packet = some next ∧
      next.Stored fun p => bytes p ++ packet.written p := by
  obtain ⟨timestamp, htimestamp, -, hstored₁⟩ := AggBuffer.stored_write (pool .timestamp)
    (hstored .timestamp) (hfits .timestamp)
  obtain ⟨length, hlength, -, hstored₂⟩ := AggBuffer.stored_write (pool .length)
    (hstored .length) (hfits .length)
  obtain ⟨header, hheader, -, hstored₃⟩ := AggBuffer.stored_write (pool .header)
    (hstored .header) (hfits .header)
  obtain ⟨downstream, hdownstream, -, hstored₅⟩ := AggBuffer.stored_write (pool .downstream)
    (hstored .downstream) (hfits .downstream)
  obtain ⟨upstream, hupstream, hstored₄⟩ : ∃ upstream,
      (if packet.is_upstream then
        AggBuffer.write (pool .upstream) buffer.upstream_data_buffer packet.data
        else some buffer.upstream_data_buffer) = some upstream ∧
      AggBuffer.Stored upstream (bytes .upstream ++ packet.written .upstream) := by
    by_cases hup : packet.is_upstream = true
    · obtain ⟨upstream, hwrite, -, hstored₄⟩ := AggBuffer.stored_write (pool .upstream)
        (hstored .upstream) (hfits .upstream)
      simp only [ParsedPacket.written, if_pos hup] at hwrite hstored₄ ⊢
      exact ⟨upstream, hwrite, hstored₄⟩
    · simp only [ParsedPacket.written, if_neg hup, List.append_nil]
      exact ⟨_, rfl, hstored .upstream⟩
  simp only [part, ParsedPacket.written] at htimestamp hlength hheader hdownstream
  unfold append_packet
  rw [htimestamp, hlength, hheader, hupstream, hdownstream]
  refine ⟨_, rfl, fun p => ?_⟩
  cases p with
  | timestamp => exact hstored₁
  | length => exact hstored₂
  | header => exact hstored₃
  | upstream => exact hstored₄
  | downstream => exact hstored₅

end FlowBuffer

end TrafficDatabase
