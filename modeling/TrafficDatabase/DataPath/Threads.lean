import TrafficDatabase.DataPath.System

/-!
# The readers' threads

What a reader's thread looks like between two of its steps.  Its pending writes
are those of one packet: each lies in its cell, they are in the order of their
cells, and a write that reaches the end of its cell is followed by writes in a
later one.  The reader's cursor leaves the tail of its cell free.
`ThreadInvariant.accept` keeps this when a packet that fits is taken up,
`ThreadInvariant.pop` when a write has succeeded.
-/

namespace TrafficDatabase

namespace DataPath

variable (cfg : DataPathConfig)

structure ThreadInvariant (i : ℕ) (thread : ReaderThread) : Prop where
  threadId : thread.reader.threadId = i
  placed : thread.started = true → cellTailLen ≤ cfg.cellSize →
    DPDKReader.Placed cfg.reader thread.reader thread.cell
  fresh : thread.started = false → thread.reader.writeOffset = 0
  writes_of_not_started : thread.started = false → thread.writes = []
  inCell : ∀ {write}, write ∈ thread.writes → DPDKReader.InCell cfg.reader write.cell write.req
  newData : ∀ {write}, write ∈ thread.writes → write.req.newData = true
  ends : ∀ {write}, write ∈ thread.writes → DPDKReader.EndsCell cfg.reader write.req →
    write.cell < thread.cell
  ordered : thread.writes.Pairwise fun first second =>
    second.cell = first.cell ∨ second.cell = thread.cell
  patch : ∀ {pending req}, thread.epilogue = some pending → pending.epilogue = .writeBefore req →
    req.newData = false

variable {cfg} {i fetched ts : ℕ} {thread : ReaderThread} {buf : Mbuf}

theorem ThreadInvariant.new (i : ℕ) : ThreadInvariant cfg i (ReaderThread.new cfg i) where
  threadId := rfl
  placed := nofun
  fresh := fun _ => rfl
  writes_of_not_started := fun _ => rfl
  inCell := nofun
  newData := nofun
  ends := nofun
  ordered := .nil
  patch := nofun

namespace ReaderThread

@[simp] theorem front_mk_nil (h : thread.writes = []) : thread.front = thread.cell := by
  simp [front, h]

theorem front_of_cons {write : PendingWrite} {rest : List PendingWrite}
    (h : thread.writes = write :: rest) : thread.front = write.cell := by
  simp [front, h]

theorem accept_of_nonIP (thread : ReaderThread) (fetched : ℕ)
    (h : DPDKReader.NonIP cfg.reader (packet cfg buf ts)) :
    (thread.accept cfg buf ts fetched).writes = [] ∧
      (thread.accept cfg buf ts fetched).epilogue = none ∧
      (thread.accept cfg buf ts fetched).cell = thread.cell ∧
      (thread.plan cfg buf ts fetched).takesCell = false := by
  have hplan : thread.plan cfg buf ts fetched = _ := DPDKReader.handlePacket_of_nonIP h
  simp only [accept, hplan]
  exact ⟨rfl, rfl, rfl, trivial⟩

theorem storedPlan (fetched : ℕ)
    (hplaced : DPDKReader.Placed cfg.reader thread.reader thread.cell)
    (h : ¬ DPDKReader.NonIP cfg.reader (packet cfg buf ts)) :
    DPDKReader.StoredPlan cfg.reader thread.reader (packet cfg buf ts) ts fetched thread.cell
      (thread.plan cfg buf ts fetched) :=
  DPDKReader.handlePacket_of_ip cfg.aligned hplaced h

/-- Taking up a packet leaves the reader writing in the cell it was in. -/
theorem accept_front (hplaced : DPDKReader.Placed cfg.reader thread.reader thread.cell) :
    (thread.accept cfg buf ts fetched).front = thread.cell := by
  by_cases h : DPDKReader.NonIP cfg.reader (packet cfg buf ts)
  · obtain ⟨hwrites, -, hcell, -⟩ := accept_of_nonIP thread fetched h
    rw [front_mk_nil hwrites, hcell]
  · have hplan := storedPlan fetched hplaced h
    have hne : (thread.plan cfg buf ts fetched).writes.inCell ≠ [] := by
      rw [hplan.writes]
      exact DPDKReader.storedWrites_inCell_ne_nil
    obtain ⟨first, rest, hfirst⟩ := List.exists_cons_of_ne_nil hne
    simp only [front, accept, hfirst]
    rfl

end ReaderThread

/-- A pending write of the packet just taken up: in the reader's cell or in the new one. -/
theorem mem_accept_writes (hplaced : DPDKReader.Placed cfg.reader thread.reader thread.cell)
    (hfits : thread.reader.Fits cfg.reader (ReaderThread.packet cfg buf ts)) {write : PendingWrite}
    (hwrite : write ∈ (thread.accept cfg buf ts fetched).writes) :
    DPDKReader.InCell cfg.reader write.cell write.req ∧ write.req.newData = true ∧
      ((write.cell = thread.cell ∧ (DPDKReader.EndsCell cfg.reader write.req →
          (thread.plan cfg buf ts fetched).takesCell = true)) ∨
        (write.cell = fetched ∧ ¬ DPDKReader.EndsCell cfg.reader write.req ∧
          (thread.plan cfg buf ts fetched).takesCell = true)) := by
  by_cases h : DPDKReader.NonIP cfg.reader (ReaderThread.packet cfg buf ts)
  · rw [(ReaderThread.accept_of_nonIP _ _ h).1] at hwrite
    exact absurd hwrite List.not_mem_nil
  have hplan := ReaderThread.storedPlan fetched hplaced h
  have hnewData : ∀ req ∈ (thread.plan cfg buf ts fetched).writes.all, req.newData = true := by
    intro req hreq
    rw [hplan.writes] at hreq
    exact DPDKReader.storedWrites_newData hreq
  simp only [ReaderThread.accept, List.mem_append, List.mem_map] at hwrite
  rcases hwrite with ⟨req, hreq, rfl⟩ | ⟨req, hreq, rfl⟩
  · have hdata := hnewData req (List.mem_append_left _ hreq)
    rw [hplan.writes] at hreq
    obtain ⟨hin, hends⟩ := DPDKReader.storedWrites_inCell hplaced hreq
    exact ⟨hin, hdata, .inl ⟨rfl, fun h => by simpa [hplan.takesCell] using hends h⟩⟩
  · have hdata := hnewData req (List.mem_append_right _ hreq)
    rw [hplan.writes] at hreq
    obtain ⟨hsplits, hin, hends⟩ := DPDKReader.storedWrites_inNewCell hplaced hfits.1 hreq
    exact ⟨hin, hdata, .inr ⟨rfl, hends, by simpa [hplan.takesCell] using hsplits⟩⟩

/-- The next packet goes behind the one just taken up. -/
theorem ReaderThread.position_lt_accept
    (hplaced : DPDKReader.Placed cfg.reader thread.reader thread.cell) (hlt : thread.cell < fetched)
    (hfits : thread.reader.Fits cfg.reader (packet cfg buf ts)) :
    thread.position cfg < (thread.accept cfg buf ts fetched).position cfg := by
  have hheader : 0 < pcapHeaderLen := by decide
  have hoffset := hplaced.offset_lt
  change thread.cell * cfg.cellSize + thread.reader.writeOffset <
    (if (thread.plan cfg buf ts fetched).takesCell then fetched else thread.cell) * cfg.cellSize +
      (thread.plan cfg buf ts fetched).reader.writeOffset
  cases htakes : (thread.plan cfg buf ts fetched).takesCell with
  | true =>
      rw [if_pos rfl]
      have hnext := Nat.mul_le_mul_right cfg.cellSize (Nat.succ_le_of_lt hlt)
      rw [Nat.succ_mul] at hnext
      change _ < cfg.cellSize at hoffset
      omega
  | false =>
      have hcursor : (thread.plan cfg buf ts fetched).reader.writeOffset =
          thread.reader.writeOffset + pcapHeaderLen + (packet cfg buf ts).len :=
        DPDKReader.handlePacket_writeOffset hfits htakes
      rw [if_neg (by decide), hcursor]
      omega

theorem ThreadInvariant.start (h : ThreadInvariant cfg i thread) (hnew : thread.started = false) :
    ThreadInvariant cfg i (thread.start fetched) where
  threadId := h.threadId
  placed := by
    intro _ htail
    have hcursor := h.fresh hnew
    refine ⟨rfl, ?_⟩
    change thread.reader.writeOffset + cellTailLen ≤ cfg.cellSize
    omega
  fresh := nofun
  writes_of_not_started := fun _ => h.writes_of_not_started hnew
  inCell := h.inCell
  newData := h.newData
  ends := by
    intro write hwrite
    have hnil : thread.writes = [] := h.writes_of_not_started hnew
    exact absurd (hnil ▸ hwrite : write ∈ []) List.not_mem_nil
  ordered := by
    have hnil : (thread.start fetched).writes = [] := h.writes_of_not_started hnew
    rw [hnil]
    exact .nil
  patch := h.patch

theorem ThreadInvariant.accept (h : ThreadInvariant cfg i thread) (hidle : thread.Idle)
    (hlt : thread.cell < fetched)
    (hfits : thread.reader.Fits cfg.reader (ReaderThread.packet cfg buf ts)) :
    ThreadInvariant cfg i (thread.accept cfg buf ts fetched) := by
  have hplaced := h.placed hidle.1 ((Nat.le_add_left _ _).trans hfits.1)
  have hcell : (thread.accept cfg buf ts fetched).cell =
      if (thread.plan cfg buf ts fetched).takesCell then fetched else thread.cell := rfl
  constructor
  · change (thread.plan cfg buf ts fetched).reader.threadId = i
    rw [ReaderThread.plan, DPDKReader.handlePacket_threadId, h.threadId]
  · exact fun _ _ => DPDKReader.handlePacket_placed hplaced hfits
  · intro hno
    exact absurd (hidle.1.symm.trans hno) (by decide)
  · intro hno
    exact absurd (hidle.1.symm.trans hno) (by decide)
  · exact fun hwrite => (mem_accept_writes hplaced hfits hwrite).1
  · exact fun hwrite => (mem_accept_writes hplaced hfits hwrite).2.1
  · intro write hwrite hends
    rcases (mem_accept_writes hplaced hfits hwrite).2.2 with ⟨heq, htakes⟩ | ⟨-, hno, -⟩
    · rw [hcell, if_pos (htakes hends), heq]
      exact hlt
    · exact absurd hends hno
  · -- first the writes in the old cell, then those in the new one
    simp only [ReaderThread.accept]
    rw [List.pairwise_append]
    refine ⟨?_, ?_, ?_⟩
    · rw [List.pairwise_map]
      exact List.pairwise_of_forall fun _ _ => .inl rfl
    · rw [List.pairwise_map]
      exact List.pairwise_of_forall fun _ _ => .inl rfl
    · intro first _ second hsecond
      have hmem : second ∈ (thread.accept cfg buf ts fetched).writes :=
        List.mem_append_right _ hsecond
      obtain ⟨req, -, rfl⟩ := List.mem_map.mp hsecond
      right
      rcases (mem_accept_writes hplaced hfits hmem).2.2 with ⟨heq, -⟩ | ⟨-, -, htakes⟩
      · exact absurd heq hlt.ne'
      · rw [if_pos htakes]
  · intro pending req hpending hreq
    by_cases hnon : DPDKReader.NonIP cfg.reader (ReaderThread.packet cfg buf ts)
    · rw [(ReaderThread.accept_of_nonIP _ _ hnon).2.1] at hpending
      exact absurd hpending (Option.some_ne_none _).symm
    · have hepilogue := (ReaderThread.storedPlan fetched hplaced hnon).epilogue
      simp only [ReaderThread.accept, hepilogue, Option.map_some, Option.some.injEq] at hpending
      rw [← hpending] at hreq
      simp only at hreq
      split at hreq
      · obtain rfl := Epilogue.writeBefore.inj hreq
        rfl
      · exact Epilogue.noConfusion hreq

theorem ThreadInvariant.pop (h : ThreadInvariant cfg i thread) {write : PendingWrite}
    {rest : List PendingWrite} (hwrites : thread.writes = write :: rest) :
    ThreadInvariant cfg i { thread with writes := rest } where
  threadId := h.threadId
  placed := h.placed
  fresh := h.fresh
  writes_of_not_started := by
    intro hno
    have := h.writes_of_not_started hno
    rw [hwrites] at this
    exact absurd this (List.cons_ne_nil _ _)
  inCell := fun hmem => h.inCell (hwrites ▸ List.mem_cons_of_mem _ hmem)
  newData := fun hmem => h.newData (hwrites ▸ List.mem_cons_of_mem _ hmem)
  ends := fun hmem => h.ends (hwrites ▸ List.mem_cons_of_mem _ hmem)
  ordered := (List.pairwise_cons.mp (hwrites ▸ h.ordered)).2
  patch := h.patch

theorem ThreadInvariant.finish (h : ThreadInvariant cfg i thread) :
    ThreadInvariant cfg i { thread with epilogue := none } where
  threadId := h.threadId
  placed := h.placed
  fresh := h.fresh
  writes_of_not_started := h.writes_of_not_started
  inCell := h.inCell
  newData := h.newData
  ends := h.ends
  ordered := h.ordered
  patch := nofun

/-- Once a write is done, the reader goes on in the same cell or in its last one. -/
theorem ThreadInvariant.front_pop (h : ThreadInvariant cfg i thread) {write : PendingWrite}
    {rest : List PendingWrite} (hwrites : thread.writes = write :: rest) :
    ({ thread with writes := rest } : ReaderThread).front = write.cell ∨
      ({ thread with writes := rest } : ReaderThread).front = thread.cell := by
  cases rest with
  | nil => exact .inr rfl
  | cons next rest => exact (List.pairwise_cons.mp (hwrites ▸ h.ordered)).1 next List.mem_cons_self

end DataPath

end TrafficDatabase
