import TrafficDatabase.DataPath.HandOut

/-!
# Draining the hand-out protocol

When the writers have stopped, the dumpers leave their loops one by one and hand
out what is left: a dumper takes the block it has come to as soon as some mark is
not behind it.  Nothing but the slot tells it that it came round too early, so a
drained block is only right if the slot holds the dumper's own block.

`Draining` is what is left of the invariant then.  The marks do not move any more,
and they are at most a lap apart (`spread`), so the window test still tells them
from the blocks of other laps.
-/

namespace TrafficDatabase

namespace HandOut

variable {p : Params} {st : State} {normal : ℕ → Prop} {dumper slot : ℕ}

/-- Every writer has published a block at least the delay past all that was handed out. -/
theorem Reachable.handed_le_mark (htimely : p.Timely) (hwriters : p.writers ≤ p.delay + 1)
    (h : Reachable p st) {block writer : ℕ} (hhanded : st.Handed p block)
    (hwriter : writer < p.writers) : block + p.delay ≤ st.mark writer := by
  induction h with
  | refl => exact absurd hhanded.2 (Nat.mod_le _ _).not_gt
  | tail hreach hstep ih =>
      have hinv := Reachable.invariant htimely hreach
      cases hstep with
      | start => exact ih hhanded
      | take => exact ih hhanded
      | advance => exact ih hhanded
      | @publish other mark _ _ hblock =>
          simp only [State.publish]
          by_cases heq : writer = other
          · subst heq
            rw [Function.update_self]
            have hfront := (Reachable.settled htimely hwriters hreach hhanded hwriter).2.1
            rcases hblock with h | h <;> omega
          · rw [Function.update_of_ne heq]
            exact ih hhanded
      | dump hdumper hmay =>
          rcases (handed_dump hinv.turns hdumper).mp hhanded with hbefore | rfl
          · exact ih hbefore
          · have hmark := hmay writer hwriter
            rw [hinv.held_cursor hdumper] at hmark
            exact hmark.le
      | recycle => exact ih hhanded

/-- What holds from the moment the writers have stopped; `normal` are the dumpers that
have not come to the drain. -/
structure Draining (p : Params) (normal : ℕ → Prop) (st : State) : Prop where
  turns : Turns p st
  exists_mark_le : ∀ {slot}, slot < p.slots →
    ∃ writer < p.writers, st.mark writer ≤ st.held slot + p.slots
  mark_le : ∀ {writer slot}, writer < p.writers → slot < p.slots →
    st.mark writer ≤ st.held slot + 2 * p.slots
  spread : ∀ {writer other}, writer < p.writers → other < p.writers →
    st.mark other ≤ st.mark writer + p.slots
  cursor_le : ∀ {writer dumper}, writer < p.writers → dumper < p.dumpers →
    st.cursor dumper ≤ st.mark writer + 2 * p.slots
  normal_cursor_lt : ∀ {dumper slot}, dumper < p.dumpers → normal dumper → slot < p.slots →
    st.cursor dumper < st.held slot + p.slots
  normal_cursor_le : ∀ {writer dumper}, writer < p.writers → dumper < p.dumpers →
    normal dumper → st.cursor dumper + p.delay ≤ st.mark writer + 2 * p.slots

namespace Draining

/-- The writers have stopped behind writes that have all been let through. -/
theorem of_stopped (htimely : p.Timely) (hwriters : p.writers ≤ p.delay + 1)
    (h : Reachable p st)
    (hreached : ∀ writer < p.writers, st.attempted writer → st.Reached p (st.mark writer)) :
    Draining p (fun _ => True) st := by
  have hinv := Reachable.invariant htimely h
  refine
    { turns := hinv.turns
      exists_mark_le := hinv.exists_mark_le
      mark_le := hinv.mark_le_oldest
      spread := ?_
      cursor_le := fun hwriter hdumper =>
        (Nat.le_add_right _ _).trans (hinv.cursor_add_delay_le hwriter hdumper)
      normal_cursor_lt := fun hdumper _ hslot => hinv.cursor_lt hdumper hslot
      normal_cursor_le := fun hwriter hdumper _ => hinv.cursor_add_delay_le hwriter hdumper }
  intro writer other hwriter hother
  by_cases hlap : st.mark other < p.slots
  · exact hlap.le.trans (Nat.le_add_left _ _)
  have hattempted : st.attempted other := by
    by_contra hno
    have hid := (hinv.unattempted hother hno).1
    have hle := p.writers_le_slots
    omega
  -- the slot of the furthest mark has come round, so the block a lap before is out
  have hmod : (st.mark other - p.slots) % p.slots = st.mark other % p.slots :=
    (Nat.mod_eq_sub_mod (not_lt.mp hlap)).symm
  have hhanded : st.Handed p (st.mark other - p.slots) := by
    refine hinv.handed_of_lt ?_
    rw [hmod]
    have hle : st.mark other ≤ st.held (st.mark other % p.slots) := hreached other hother hattempted
    have hpos := p.slots_pos
    omega
  have := Reachable.handed_le_mark htimely hwriters h hhanded hwriter
  omega

/-- A dumper goes on as before the stop. -/
theorem dump (h : Draining p normal st) (htimely : p.Timely) (hdumper : dumper < p.dumpers)
    (hnormal : normal dumper) (hmay : st.MayDump p dumper) :
    Draining p normal (st.dump p dumper) := by
  have hheld := h.turns.held_cursor hdumper
    (h.normal_cursor_lt hdumper hnormal (Nat.mod_lt _ p.slots_pos))
  have hmark : ∀ writer < p.writers, st.cursor dumper + p.delay < st.mark writer := by
    intro writer hwriter
    have := hmay writer hwriter
    rwa [hheld] at this
  have hdumpers := p.dumpers_le_slots
  have hdelay := htimely.dumpers_le_delay
  have hcursor : ∀ other, (st.dump p dumper).cursor other =
      if other = dumper then st.cursor dumper + p.dumpers else st.cursor other :=
    fun other => Function.update_apply ..
  refine
    { turns := h.turns.dump hdumper hheld
      exists_mark_le := h.exists_mark_le
      mark_le := h.mark_le
      spread := h.spread
      cursor_le := ?_
      normal_cursor_lt := ?_
      normal_cursor_le := ?_ }
  · intro writer other hwriter hother
    rw [hcursor]
    have hm : st.cursor dumper + p.delay < st.mark writer := hmark writer hwriter
    change _ ≤ st.mark writer + 2 * p.slots
    split_ifs
    · omega
    · exact h.cursor_le hwriter hother
  · intro other slot hother hothernormal hslot
    rw [hcursor]
    change _ < st.held slot + p.slots
    split_ifs
    · obtain ⟨writer, hwriter, hle⟩ := h.exists_mark_le hslot
      have := hmark writer hwriter
      omega
    · exact h.normal_cursor_lt hother hothernormal hslot
  · intro writer other hwriter hother hothernormal
    rw [hcursor]
    have hm : st.cursor dumper + p.delay < st.mark writer := hmark writer hwriter
    change _ ≤ st.mark writer + 2 * p.slots
    split_ifs
    · omega
    · exact h.normal_cursor_le hwriter hother hothernormal

/-- A dumper that drains takes its own block, which some mark is not behind. -/
theorem drain (h : Draining p normal st) (hdumper : dumper < p.dumpers) (hnot : ¬ normal dumper)
    (hheld : st.held (st.cursor dumper % p.slots) = st.cursor dumper)
    (hreached : ∃ writer < p.writers, st.cursor dumper ≤ st.mark writer) :
    Draining p normal (st.dump p dumper) := by
  have hdumpers := p.dumpers_le_slots
  obtain ⟨reader, hreader, hle⟩ := hreached
  have hcursor : ∀ other, (st.dump p dumper).cursor other =
      if other = dumper then st.cursor dumper + p.dumpers else st.cursor other :=
    fun other => Function.update_apply ..
  refine
    { turns := h.turns.dump hdumper hheld
      exists_mark_le := h.exists_mark_le
      mark_le := h.mark_le
      spread := h.spread
      cursor_le := ?_
      normal_cursor_lt := ?_
      normal_cursor_le := ?_ }
  · intro writer other hwriter hother
    rw [hcursor]
    have hm : st.mark reader ≤ st.mark writer + p.slots := h.spread hwriter hreader
    change _ ≤ st.mark writer + 2 * p.slots
    split_ifs
    · omega
    · exact h.cursor_le hwriter hother
  · intro other slot hother hothernormal hslot
    have hne : other ≠ dumper := fun heq => hnot (heq ▸ hothernormal)
    rw [hcursor, if_neg hne]
    exact h.normal_cursor_lt hother hothernormal hslot
  · intro writer other hwriter hother hothernormal
    have hne : other ≠ dumper := fun heq => hnot (heq ▸ hothernormal)
    rw [hcursor, if_neg hne]
    exact h.normal_cursor_le hwriter hother hothernormal

theorem recycle (h : Draining p normal st) (hslot : slot < p.slots)
    (hhanded : st.Handed p (st.held slot)) : Draining p normal (st.recycle p slot) := by
  have hgrows : ∀ other, st.held other ≤ (st.recycle p slot).held other := held_le_recycle
  refine
    { turns := h.turns.recycle hslot hhanded
      exists_mark_le := fun {other} hother => ?_
      mark_le := fun {writer other} hwriter hother => ?_
      spread := h.spread
      cursor_le := h.cursor_le
      normal_cursor_lt := fun {dumper other} hdumper hnormal hother => ?_
      normal_cursor_le := h.normal_cursor_le }
  · obtain ⟨writer, hwriter, hle⟩ := h.exists_mark_le hother
    exact ⟨writer, hwriter, hle.trans (Nat.add_le_add_right (hgrows other) _)⟩
  · exact (h.mark_le hwriter hother).trans (Nat.add_le_add_right (hgrows other) _)
  · exact (h.normal_cursor_lt hdumper hnormal hother).trans_le
      (Nat.add_le_add_right (hgrows other) _)

/-- Some dumper leaves its loop. -/
theorem leave (h : Draining p normal st) {fewer : ℕ → Prop}
    (hfewer : ∀ {dumper}, fewer dumper → normal dumper) : Draining p fewer st where
  turns := h.turns
  exists_mark_le := h.exists_mark_le
  mark_le := h.mark_le
  spread := h.spread
  cursor_le := h.cursor_le
  normal_cursor_lt := fun hdumper hnormal => h.normal_cursor_lt hdumper (hfewer hnormal)
  normal_cursor_le := fun hwriter hdumper hnormal =>
    h.normal_cursor_le hwriter hdumper (hfewer hnormal)

/-- The slot a dumper looks at is at most two laps past any mark. -/
theorem held_le (h : Draining p normal st) {writer : ℕ} (hwriter : writer < p.writers)
    (hdumper : dumper < p.dumpers) :
    st.held (st.cursor dumper % p.slots) ≤ st.mark writer + 2 * p.slots :=
  (h.turns.held_le_cursor hdumper).trans (h.cursor_le hwriter hdumper)

end Draining

end HandOut

end TrafficDatabase
