import Mathlib.Data.Fintype.EquivFin
import Mathlib.Tactic.IntervalCases
import TrafficDatabase.Library.Residue
import TrafficDatabase.Library.SlotClaims
import TrafficDatabase.Library.TransitionSystem

/-!
# The pool of blocks

A `PointerRingPool` (`pointerRingPool.hpp`) keeps its free blocks in a ring of slots, each with
a flag that says whether the slot has a block.  `allocate` and `free` draw a position each from
a counter of its own, look at the flag of the slot, and go on only if it is as they need it;
the position is used up in any case.

* `State`, `step`: the threads, one access to the shared memory a step;
* `TakesTurns`: the steps at which nothing goes wrong.  No `free` finds the flag of its slot
  set, and no two calls of one kind are past the test of one slot;
* `Place`, `Placed`: where each block is, which such steps keep track of;
* `Conserves`: every block is held once or ready once, and when all are ready, as many calls of
  `allocate` as there are blocks get one each.
-/

namespace TrafficDatabase

/-- A number of blocks the constructor takes: it tests the lower 32 bits. -/
structure PointerRingPoolConfig where
  block_count : ℕ
  block_count_pos : 0 < block_count
  block_count_lt : block_count < 2 ^ 64
  isPowerOfTwo : (block_count % 2 ^ 32) &&& (block_count % 2 ^ 32 - 1) = 0

/-- With fewer than `2 ^ 32` blocks the counters wrap at the end of a lap. -/
theorem PointerRingPoolConfig.dvd_of_lt (cfg : PointerRingPoolConfig)
    (hlt : cfg.block_count < 2 ^ 32) : cfg.block_count ∣ 2 ^ 64 := by
  have htest := cfg.isPowerOfTwo
  rw [Nat.mod_eq_of_lt hlt,
    Nat.and_sub_one_eq_zero_iff_isPowerOfTwo cfg.block_count_pos.ne'] at htest
  obtain ⟨k, hk⟩ := htest
  rw [hk] at hlt ⊢
  have hle : k ≤ 64 := by
    have := (Nat.pow_lt_pow_iff_right (by decide)).mp hlt
    omega
  exact Nat.pow_dvd_pow 2 hle

namespace PointerRingPool

/-- Where a thread is in `allocate` (the first three after `idle`) or in `free`, with the slot
and the block. -/
inductive Stage
  | idle
  | testing (pos : ℕ)
  | loading (pos : ℕ)
  | clearing (data pos : ℕ)
  | checking (block pos : ℕ)
  | storing (block pos : ℕ)
  | signalling (block pos : ℕ)
deriving DecidableEq

namespace Stage

/-- The slot of a call of `allocate` past its test. -/
def drains : Stage → Option ℕ
  | loading pos | clearing _ pos => some pos
  | _ => none

/-- The slot of a call of `free` past its test. -/
def fills : Stage → Option ℕ
  | storing _ pos | signalling _ pos => some pos
  | _ => none

/-- The block that a call of `free` still has. -/
def block : Stage → Option ℕ
  | checking block _ | storing block _ | signalling block _ => some block
  | _ => none

end Stage

/-- The pool with its threads. A block is known by its number; `held` counts for each block the
calls of `allocate` that have returned it, less the calls of `free` it was given to. -/
structure State (Thread : Type*) where
  blocks : ℕ → ℕ
  signalBuffer : ℕ → Bool
  alloPos : ℕ
  freePos : ℕ
  stage : Thread → Stage
  held : ℕ → ℕ

inductive Label (Thread : Type*)
  | allocate (t : Thread)
  | free (t : Thread) (block : ℕ)
  | advance (t : Thread)

variable {Thread : Type*} [DecidableEq Thread] (cfg : PointerRingPoolConfig)

namespace State

/-- After the constructor. -/
def init : State Thread where
  blocks := id
  signalBuffer := fun _ => true
  alloPos := 0
  freePos := 0
  stage := fun _ => .idle
  held := fun _ => 0

variable (st : State Thread)

def setStage (t : Thread) (stage : Stage) : State Thread :=
  { st with stage := Function.update st.stage t stage }

/-- The next access of a call. -/
def advance (t : Thread) : Option (State Thread) :=
  match st.stage t with
  | .idle => none
  | .testing pos =>
      if st.signalBuffer pos then some (st.setStage t (.loading pos))
      else some (st.setStage t .idle)
  | .loading pos => some (st.setStage t (.clearing (st.blocks pos) pos))
  | .clearing data pos =>
      some { st.setStage t .idle with
        signalBuffer := Function.update st.signalBuffer pos false
        held := Function.update st.held data (st.held data + 1) }
  | .checking block pos =>
      if st.signalBuffer pos then some (st.setStage t .idle)
      else some (st.setStage t (.storing block pos))
  | .storing block pos =>
      some { st.setStage t (.signalling block pos) with
        blocks := Function.update st.blocks pos block }
  | .signalling _ pos =>
      some { st.setStage t .idle with
        signalBuffer := Function.update st.signalBuffer pos true }

end State

/-- A block can be freed when it is held. -/
def step (st : State Thread) : Label Thread → Option (State Thread)
  | .allocate t =>
      match st.stage t with
      | .idle =>
          some { st.setStage t (.testing (st.alloPos % cfg.block_count)) with
            alloPos := (st.alloPos + 1) % 2 ^ 64 }
      | _ => none
  | .free t block =>
      match st.stage t with
      | .idle =>
          if 0 < st.held block then
            some { st.setStage t (.checking block (st.freePos % cfg.block_count)) with
              freePos := (st.freePos + 1) % 2 ^ 64
              held := Function.update st.held block (st.held block - 1) }
          else none
      | _ => none
  | .advance t => st.advance t

/-- The pool with its threads. -/
def system (Thread : Type*) [DecidableEq Thread] : TransitionSystem (State Thread) (Label Thread) :=
  { init := State.init, step := step cfg }

/-- No call of `free` is refused, and none passes the test of a slot while another one is past
it; the same for calls of `allocate`. -/
def State.Turn (st : State Thread) (t : Thread) : Stage → Prop
  | .testing pos => st.signalBuffer pos = true → ∀ u, u ≠ t → (st.stage u).drains ≠ some pos
  | .checking _ pos =>
      st.signalBuffer pos = false ∧ ∀ u, u ≠ t → (st.stage u).fills ≠ some pos
  | _ => True

/-- The threads take turns at the slots. The counter of `allocate` does not wrap within a lap. -/
def TakesTurns (st : State Thread) : Label Thread → Prop
  | .allocate _ => cfg.block_count ∣ 2 ^ 64 ∨ st.alloPos + cfg.block_count < 2 ^ 64
  | .free .. => True
  | .advance t => st.Turn t (st.stage t)

section Decidable

variable [Fintype Thread] (st : State Thread)

instance (t : Thread) : DecidablePred (st.Turn t)
  | .testing _ => inferInstanceAs (Decidable (_ → _))
  | .checking .. => inferInstanceAs (Decidable (_ ∧ _))
  | .idle | .loading _ | .clearing .. | .storing .. | .signalling .. => .isTrue trivial

instance : DecidablePred (TakesTurns cfg st)
  | .allocate _ => inferInstanceAs (Decidable (_ ∨ _))
  | .free .. => .isTrue trivial
  | .advance t => inferInstanceAs (Decidable (st.Turn t _))

end Decidable

/-! ## What the pool promises -/

/-- A slot has a block to give. -/
def State.Ready (st : State Thread) (pos block : ℕ) : Prop :=
  pos < cfg.block_count ∧ st.signalBuffer pos = true ∧ st.blocks pos = block

/-- A block is held by one caller, or by one call of `free`, or it is in one ready slot. -/
inductive Lies (st : State Thread) (block : ℕ) : Prop
  | held (count : st.held block = 1) (call : ∀ t, (st.stage t).block ≠ some block)
      (slot : ∀ pos, ¬ st.Ready cfg pos block)
  | freed (count : st.held block = 0) (call : ∃! t, (st.stage t).block = some block)
      (slot : ∀ pos, ¬ st.Ready cfg pos block)
  | ready (count : st.held block = 0) (call : ∀ t, (st.stage t).block ≠ some block)
      (slot : ∃! pos, st.Ready cfg pos block)

/-- The four steps of a call of `allocate` that returns a block. -/
def allocateCall (t : Thread) : List (Label Thread) :=
  [.allocate t, .advance t, .advance t, .advance t]

/-- No block is lost or given out twice, and when all have been freed, they can all be
allocated again. -/
structure Conserves (st : State Thread) : Prop where
  placed : ∀ block < cfg.block_count, Lies cfg st block
  reusable : (∀ block < cfg.block_count, st.held block = 0) → (∀ t, st.stage t = .idle) →
    ∀ calls : List Thread, calls.length = cfg.block_count →
      ∃ last, (system cfg Thread).run st (calls.flatMap allocateCall) = some last ∧
        ∀ block < cfg.block_count, last.held block = 1

/-! ## Where the blocks are -/

/-- The place of a block. -/
inductive Place (Thread : Type*)
  | caller
  | call (t : Thread)
  | slot (pos : ℕ)

/-- The state has every block in the place that `place` says, and nowhere else. -/
structure Placed (st : State Thread) (place : ℕ → Place Thread) : Prop where
  held : ∀ block < cfg.block_count, place block = .caller → st.held block = 1
  not_held : ∀ block, (block < cfg.block_count → place block ≠ .caller) → st.held block = 0
  call : ∀ block t, (st.stage t).block = some block ↔
    block < cfg.block_count ∧ place block = .call t
  slot : ∀ block pos, st.Ready cfg pos block ↔
    block < cfg.block_count ∧ place block = .slot pos

variable {cfg} {st next : State Thread} {place : ℕ → Place Thread} {t : Thread}

omit [DecidableEq Thread] in
theorem Placed.lies (h : Placed cfg st place) {block : ℕ} (hblock : block < cfg.block_count) :
    Lies cfg st block := by
  cases hplace : place block with
  | caller =>
    refine .held (h.held block hblock hplace) ?_ ?_
    · intro t ht
      rw [h.call, hplace] at ht
      exact nomatch ht.2
    · intro pos hpos
      rw [h.slot, hplace] at hpos
      exact nomatch hpos.2
  | call t =>
    refine .freed (h.not_held block fun _ hcaller => ?_)
      ⟨t, (h.call block t).mpr ⟨hblock, hplace⟩, ?_⟩ ?_
    · rw [hplace] at hcaller
      exact nomatch hcaller
    · intro u hu
      have hat := ((h.call block u).mp hu).2
      rw [hplace] at hat
      exact (Place.call.inj hat).symm
    · intro pos hpos
      rw [h.slot, hplace] at hpos
      exact nomatch hpos.2
  | slot pos =>
    refine .ready (h.not_held block fun _ hcaller => ?_) ?_
      ⟨pos, (h.slot block pos).mpr ⟨hblock, hplace⟩, ?_⟩
    · rw [hplace] at hcaller
      exact nomatch hcaller
    · intro t ht
      rw [h.call, hplace] at ht
      exact nomatch ht.2
    · intro other hother
      have hat := ((h.slot block other).mp hother).2
      rw [hplace] at hat
      exact (Place.slot.inj hat).symm

/-- A call is at a slot of the ring, and what it has read or stored there is there. -/
def Stage.Fits (cfg : PointerRingPoolConfig) (blocks : ℕ → ℕ) : Stage → Prop
  | idle => True
  | testing pos | loading pos | checking _ pos | storing _ pos => pos < cfg.block_count
  | clearing block pos | signalling block pos => pos < cfg.block_count ∧ blocks pos = block

/-- What every step at which the threads take turns keeps. -/
structure Inv (cfg : PointerRingPoolConfig) (st : State Thread) : Prop where
  placed : ∃ place, Placed cfg st place
  drains : Exclusive st.signalBuffer true (Stage.drains ∘ st.stage)
  fills : Exclusive st.signalBuffer false (Stage.fills ∘ st.stage)
  fits : ∀ t, (st.stage t).Fits cfg st.blocks
  counter : st.alloPos < 2 ^ 64
  lap : cfg.block_count ∣ 2 ^ 64 ∨ st.alloPos + cfg.block_count ≤ 2 ^ 64

omit [DecidableEq Thread] in
theorem inv_init : Inv cfg (State.init : State Thread) where
  placed := by
    refine ⟨fun block => .slot block, ?_, ?_, ?_, ?_⟩
    · intro block _ h
      exact nomatch h
    · exact fun _ _ => rfl
    · intro block t
      constructor
      · intro h
        cases h
      · rintro ⟨-, h⟩
        cases h
    · intro block pos
      constructor
      · rintro ⟨hpos, -, rfl⟩
        exact ⟨hpos, rfl⟩
      · rintro ⟨hblock, h⟩
        cases h
        exact ⟨hblock, rfl, rfl⟩
  drains := Exclusive.of_none fun _ => rfl
  fills := Exclusive.of_none fun _ => rfl
  fits := fun _ => trivial
  counter := Nat.two_pow_pos 64
  lap := Or.inr (by
    have := cfg.block_count_lt
    change 0 + _ ≤ _
    omega)

/-! ### A block moves -/

section Moves

variable {block pos : ℕ} {p : Place Thread}

omit [DecidableEq Thread] in
theorem Placed.keep (h : Placed cfg st place) (hheld : next.held = st.held)
    (hcall : ∀ u, (next.stage u).block = (st.stage u).block)
    (hslot : ∀ c pos, next.Ready cfg pos c ↔ st.Ready cfg pos c) : Placed cfg next place where
  held := hheld ▸ h.held
  not_held := hheld ▸ h.not_held
  call := fun c u => (hcall u).symm ▸ h.call c u
  slot := fun c pos => (hslot c pos).trans (h.slot c pos)

omit [DecidableEq Thread] in
/-- One block comes to the place `p`, and the others stay where they are. -/
theorem Placed.move (h : Placed cfg st place) (hblock : block < cfg.block_count)
    (hcaller : p = .caller → next.held block = 1) (hheld : p ≠ .caller → next.held block = 0)
    (hheld' : ∀ c, c ≠ block → next.held c = st.held c)
    (hcall : ∀ u, (next.stage u).block = some block ↔ p = .call u)
    (hcall' : ∀ c, c ≠ block → ∀ u, (next.stage u).block = some c ↔ (st.stage u).block = some c)
    (hslot : ∀ pos, next.Ready cfg pos block ↔ p = .slot pos)
    (hslot' : ∀ c, c ≠ block → ∀ pos, next.Ready cfg pos c ↔ st.Ready cfg pos c) :
    Placed cfg next (Function.update place block p) where
  held := by
    intro c hc hplace
    by_cases heq : c = block
    · subst heq
      rw [Function.update_self] at hplace
      exact hcaller hplace
    · rw [Function.update_of_ne heq] at hplace
      rw [hheld' c heq, h.held c hc hplace]
  not_held := by
    intro c hplace
    by_cases heq : c = block
    · subst heq
      have hne := hplace hblock
      rw [Function.update_self] at hne
      exact hheld hne
    · rw [Function.update_of_ne heq] at hplace
      rw [hheld' c heq, h.not_held c hplace]
  call := by
    intro c u
    by_cases heq : c = block
    · subst heq
      rw [Function.update_self, hcall u]
      exact ⟨fun hp => ⟨hblock, hp⟩, And.right⟩
    · rw [Function.update_of_ne heq, hcall' c heq u, h.call]
  slot := by
    intro c pos
    by_cases heq : c = block
    · subst heq
      rw [Function.update_self, hslot pos]
      exact ⟨fun hp => ⟨hblock, hp⟩, And.right⟩
    · rw [Function.update_of_ne heq, hslot' c heq pos, h.slot]

omit [DecidableEq Thread] in
theorem Placed.held_zero (h : Placed cfg st place) (hplace : place block = p)
    (hp : p ≠ .caller) : st.held block = 0 :=
  h.not_held block fun _ hcaller => hp (hplace.symm.trans hcaller)

/-- A call that has the block neither before nor after its step. -/
theorem block_setStage {c : ℕ} {s : Stage} (hbefore : (st.stage t).block ≠ some c)
    (hafter : s.block ≠ some c) (u : Thread) :
    ((st.setStage t s).stage u).block = some c ↔ (st.stage u).block = some c := by
  by_cases heq : u = t
  · subst heq
    simp only [State.setStage, Function.update_self]
    exact iff_of_false hafter hbefore
  · simp only [State.setStage, Function.update_of_ne heq]

/-- When the one call that may have the block ends, no call has it. -/
theorem Placed.no_call (h : Placed cfg st place) (hplace : place block = p)
    (hp : ∀ u, u ≠ t → p ≠ .call u) (u : Thread) :
    ((st.setStage t .idle).stage u).block ≠ some block := by
  by_cases heq : u = t
  · subst heq
    simp only [State.setStage, Function.update_self]
    exact fun hat => nomatch hat
  · simp only [State.setStage, Function.update_of_ne heq]
    exact fun hat => hp u heq (hplace.symm.trans ((h.call block u).mp hat).2)

/-- A caller gives a block to a call of `free`. -/
theorem Placed.give (h : Placed cfg st place) (hheld : 0 < st.held block)
    (hidle : st.stage t = .idle) (pos freePos : ℕ) :
    ∃ place', Placed cfg { st.setStage t (.checking block pos) with
      freePos := freePos
      held := Function.update st.held block (st.held block - 1) } place' := by
  obtain ⟨hblock, hplace⟩ : block < cfg.block_count ∧ place block = .caller := by
    by_contra hnot
    have hzero := h.not_held block fun hlt heq => hnot ⟨hlt, heq⟩
    omega
  have hone := h.held block hblock hplace
  refine ⟨_, h.move (p := .call t) hblock (fun hp => nomatch hp) (fun _ => ?_) ?_ ?_ ?_ ?_ ?_⟩
  · simp only [Function.update_self, hone]
  · intro c hc
    simp only [Function.update_of_ne hc]
  · intro u
    by_cases heq : u = t
    · subst heq
      simp only [State.setStage, Function.update_self, Stage.block]
    · simp only [State.setStage, Function.update_of_ne heq, h.call, hplace]
      exact ⟨fun hat => (nomatch hat.2), fun hat => absurd (Place.call.inj hat).symm heq⟩
  · intro c hc
    apply block_setStage
    · rw [hidle]
      exact fun hat => nomatch hat
    · exact fun hat => hc (Option.some.inj hat).symm
  · intro pos
    have hready := h.slot block pos
    rw [hplace] at hready
    exact ⟨fun hat => (nomatch (hready.mp hat).2), fun hat => (nomatch hat)⟩
  · exact fun c _ pos => Iff.rfl

/-- A call of `allocate` takes the block of its slot. -/
theorem Placed.take (h : Placed cfg st place) (hready : st.Ready cfg pos block)
    (hstage : st.stage t = .clearing block pos) :
    ∃ place', Placed cfg { st.setStage t .idle with
      signalBuffer := Function.update st.signalBuffer pos false
      held := Function.update st.held block (st.held block + 1) } place' := by
  obtain ⟨hblock, hplace⟩ := (h.slot block pos).mp hready
  have hzero := h.held_zero hplace fun hp => nomatch hp
  refine ⟨_, h.move (p := .caller) hblock (fun _ => ?_) (fun hne => absurd rfl hne) ?_ ?_ ?_ ?_ ?_⟩
  · simp only [Function.update_self, hzero]
  · intro c hc
    simp only [Function.update_of_ne hc]
  · intro u
    exact iff_of_false (h.no_call hplace (fun _ _ hp => nomatch hp) u) fun hp => nomatch hp
  · intro c hc
    apply block_setStage
    · rw [hstage]
      exact fun hat => nomatch hat
    · exact fun hat => nomatch hat
  · -- the block was in this slot only, and the flag of the slot is clear now
    intro other
    refine ⟨fun ⟨hother, hsignal, hat⟩ => ?_, fun hat => (nomatch hat)⟩
    by_cases heq : other = pos
    · subst heq
      simp only [Function.update_self] at hsignal
      exact nomatch hsignal
    · simp only [Function.update_of_ne heq] at hsignal
      have hplace' := ((h.slot block other).mp ⟨hother, hsignal, hat⟩).2
      rw [hplace] at hplace'
      exact absurd (Place.slot.inj hplace').symm heq
  · intro c hc other
    by_cases heq : other = pos
    · subst heq
      simp only [State.Ready, State.setStage, Function.update_self, hready.2.2]
      exact ⟨fun hat => (nomatch hat.2.1), fun hat => absurd hat.2.2.symm hc⟩
    · simp only [State.Ready, State.setStage, Function.update_of_ne heq]

/-- A call of `free` leaves its block in its slot. -/
theorem Placed.put (h : Placed cfg st place) (hstage : st.stage t = .signalling block pos)
    (hpos : pos < cfg.block_count) (hclear : st.signalBuffer pos = false)
    (hstored : st.blocks pos = block) :
    ∃ place', Placed cfg { st.setStage t .idle with
      signalBuffer := Function.update st.signalBuffer pos true } place' := by
  have hcall : (st.stage t).block = some block := by rw [hstage, Stage.block]
  obtain ⟨hblock, hplace⟩ := (h.call block t).mp hcall
  have hzero := h.held_zero hplace fun hp => nomatch hp
  refine ⟨_, h.move (p := .slot pos) hblock (fun hp => nomatch hp) (fun _ => hzero)
    (fun _ _ => rfl) ?_ ?_ ?_ ?_⟩
  · intro u
    refine iff_of_false (h.no_call hplace (fun u hne hp => ?_) u) fun hp => nomatch hp
    exact hne (Place.call.inj hp).symm
  · intro c hc
    apply block_setStage
    · rw [hcall]
      exact fun hat => hc (Option.some.inj hat).symm
    · exact fun hat => nomatch hat
  · intro other
    refine ⟨fun ⟨hother, hsignal, hat⟩ => ?_, fun hat => ?_⟩
    · by_cases heq : other = pos
      · rw [heq]
      · simp only [Function.update_of_ne heq] at hsignal
        have hplace' := ((h.slot block other).mp ⟨hother, hsignal, hat⟩).2
        rw [hplace] at hplace'
        exact nomatch hplace'
    · obtain rfl := Place.slot.inj hat
      refine ⟨hpos, ?_, hstored⟩
      simp only [Function.update_self]
  · intro c hc other
    by_cases heq : other = pos
    · subst heq
      simp only [State.Ready, State.setStage, Function.update_self, hstored, hclear]
      exact ⟨fun hat => absurd hat.2.2.symm hc, fun hat => (nomatch hat.2.1)⟩
    · simp only [State.Ready, State.setStage, Function.update_of_ne heq]

end Moves

/-! ### The steps -/

/-- A property of all threads, after the step of one. -/
theorem forall_setStage {P : Thread → Stage → Prop} (h : ∀ u, P u (st.stage u)) {s : Stage}
    (hs : P t s) : ∀ u, P u ((st.setStage t s).stage u) :=
  (Function.forall_update_iff st.stage P).mpr ⟨hs, fun u _ => h u⟩

theorem Inv.exclusive_drains (h : Inv cfg st) {s : Stage} (hdrains : ∀ pos, s.drains = some pos →
      st.signalBuffer pos = true ∧ ∀ u, u ≠ t → (st.stage u).drains ≠ some pos) :
    Exclusive st.signalBuffer true (Stage.drains ∘ (st.setStage t s).stage) := by
  rw [State.setStage, Function.comp_update]
  exact h.drains.update hdrains

theorem Inv.exclusive_fills (h : Inv cfg st) {s : Stage} (hfills : ∀ pos, s.fills = some pos →
      st.signalBuffer pos = false ∧ ∀ u, u ≠ t → (st.stage u).fills ≠ some pos) :
    Exclusive st.signalBuffer false (Stage.fills ∘ (st.setStage t s).stage) := by
  rw [State.setStage, Function.comp_update]
  exact h.fills.update hfills

theorem Inv.leave_drains (h : Inv cfg st) (t : Thread) :
    Exclusive st.signalBuffer true (Stage.drains ∘ (st.setStage t .idle).stage) :=
  h.exclusive_drains fun _ heq => nomatch heq

theorem Inv.leave_fills (h : Inv cfg st) (t : Thread) :
    Exclusive st.signalBuffer false (Stage.fills ∘ (st.setStage t .idle).stage) :=
  h.exclusive_fills fun _ heq => nomatch heq

/-- A step of a thread that leaves the slots as they are. -/
theorem Inv.setStage (h : Inv cfg st) {s : Stage} (hblock : s.block = (st.stage t).block)
    (hdrains : ∀ pos, s.drains = some pos →
      st.signalBuffer pos = true ∧ ∀ u, u ≠ t → (st.stage u).drains ≠ some pos)
    (hfills : ∀ pos, s.fills = some pos →
      st.signalBuffer pos = false ∧ ∀ u, u ≠ t → (st.stage u).fills ≠ some pos)
    (hfits : s.Fits cfg st.blocks) : Inv cfg (st.setStage t s) where
  placed := by
    obtain ⟨place, hplace⟩ := h.placed
    refine ⟨place, hplace.keep rfl ?_ fun _ _ => Iff.rfl⟩
    exact forall_setStage (P := fun u s' => s'.block = (st.stage u).block) (fun _ => rfl) hblock
  drains := h.exclusive_drains hdrains
  fills := h.exclusive_fills hfills
  fits := forall_setStage (P := fun _ s' => s'.Fits cfg st.blocks) h.fits hfits
  counter := h.counter
  lap := h.lap

theorem Inv.idle (h : Inv cfg st) (hblock : (st.stage t).block = none) :
    Inv cfg (st.setStage t .idle) :=
  h.setStage hblock.symm (fun _ heq => nomatch heq) (fun _ heq => nomatch heq) trivial

theorem Inv.allocate (h : Inv cfg st) (hidle : st.stage t = .idle)
    (hlap : cfg.block_count ∣ 2 ^ 64 ∨ st.alloPos + cfg.block_count < 2 ^ 64) :
    Inv cfg { st.setStage t (.testing (st.alloPos % cfg.block_count)) with
      alloPos := (st.alloPos + 1) % 2 ^ 64 } := by
  have hpos := cfg.block_count_pos
  have hblock : (Stage.testing (st.alloPos % cfg.block_count)).block = (st.stage t).block := by
    rw [hidle]
    rfl
  have hset : Inv cfg (st.setStage t (.testing (st.alloPos % cfg.block_count))) :=
    h.setStage hblock (fun _ heq => nomatch heq) (fun _ heq => nomatch heq) (Nat.mod_lt _ hpos)
  refine ⟨?_, hset.drains, hset.fills, hset.fits, Nat.mod_lt _ (Nat.two_pow_pos 64), ?_⟩
  · obtain ⟨place, hplace⟩ := hset.placed
    exact ⟨place, hplace.keep rfl (fun _ => rfl) fun _ _ => Iff.rfl⟩
  · rcases hlap with hdvd | hlt
    · exact Or.inl hdvd
    · right
      change (st.alloPos + 1) % 2 ^ 64 + cfg.block_count ≤ 2 ^ 64
      rw [Nat.mod_eq_of_lt (by omega)]
      omega

theorem Inv.free (h : Inv cfg st) {block : ℕ} (hidle : st.stage t = .idle)
    (hheld : 0 < st.held block) :
    Inv cfg { st.setStage t (.checking block (st.freePos % cfg.block_count)) with
      freePos := (st.freePos + 1) % 2 ^ 64
      held := Function.update st.held block (st.held block - 1) } where
  placed := by
    obtain ⟨place, hplace⟩ := h.placed
    exact hplace.give hheld hidle _ _
  drains := h.exclusive_drains fun _ heq => nomatch heq
  fills := h.exclusive_fills fun _ heq => nomatch heq
  fits := forall_setStage (P := fun _ s' => s'.Fits cfg st.blocks) h.fits
    (Nat.mod_lt _ cfg.block_count_pos)
  counter := h.counter
  lap := h.lap

theorem Inv.clear (h : Inv cfg st) {data pos : ℕ} (hstage : st.stage t = .clearing data pos) :
    Inv cfg { st.setStage t .idle with
      signalBuffer := Function.update st.signalBuffer pos false
      held := Function.update st.held data (st.held data + 1) } := by
  have hfits := h.fits t
  rw [hstage] at hfits
  have hdrains : (st.stage t).drains = some pos := by rw [hstage, Stage.drains]
  have hsignal := h.drains.flag t pos hdrains
  refine ⟨?_, ?_, ?_, ?_, h.counter, h.lap⟩
  · obtain ⟨place, hplace⟩ := h.placed
    exact hplace.take ⟨hfits.1, hsignal, hfits.2⟩ hstage
  · refine (h.leave_drains t).setFlag ?_ false
    refine (Function.forall_update_iff st.stage fun _ s => s.drains ≠ some pos).mpr ⟨?_, ?_⟩
    · exact fun heq => nomatch heq
    · exact h.drains.alone hdrains
  · -- no call of `free` is past the test of the slot, whose flag is set
    refine (h.leave_fills t).setFlag ?_ false
    refine forall_setStage (P := fun _ s => s.fills ≠ some pos) ?_ fun heq => nomatch heq
    intro u hu
    rw [h.fills.flag u pos hu] at hsignal
    exact nomatch hsignal
  · exact forall_setStage (P := fun _ s' => s'.Fits cfg st.blocks) h.fits trivial

theorem Inv.store (h : Inv cfg st) {block pos : ℕ} (hstage : st.stage t = .storing block pos) :
    Inv cfg { st.setStage t (.signalling block pos) with
      blocks := Function.update st.blocks pos block } := by
  have hpos : pos < cfg.block_count := by
    have hfits := h.fits t
    rwa [hstage] at hfits
  have hfills : (st.stage t).fills = some pos := by rw [hstage, Stage.fills]
  have hsignal := h.fills.flag t pos hfills
  refine ⟨?_, h.exclusive_drains fun _ heq => (nomatch heq), h.exclusive_fills ?_, ?_,
    h.counter, h.lap⟩
  · obtain ⟨place, hplace⟩ := h.placed
    refine ⟨place, hplace.keep rfl ?_ ?_⟩
    · refine forall_setStage (P := fun u s' => s'.block = (st.stage u).block) (fun _ => rfl) ?_
      rw [hstage]
      rfl
    · -- the slot that is written is not ready
      intro c other
      by_cases heq : other = pos
      · subst heq
        simp only [State.Ready, State.setStage, hsignal]
        exact ⟨fun hat => (nomatch hat.2.1), fun hat => (nomatch hat.2.1)⟩
      · simp only [State.Ready, State.setStage, Function.update_of_ne heq]
  · rintro _ ⟨⟩
    exact ⟨hsignal, h.fills.alone hfills⟩
  · refine (Function.forall_update_iff st.stage fun _ s' =>
      s'.Fits cfg (Function.update st.blocks pos block)).mpr ⟨⟨hpos, Function.update_self ..⟩, ?_⟩
    intro u hu
    have hother := h.fits u
    -- no other call has read or stored a block at this slot
    cases hstage' : st.stage u with
    | clearing data pos' =>
      rw [hstage'] at hother
      have hne : pos' ≠ pos := by
        rintro rfl
        have hset := h.drains.flag u pos' (by rw [Function.comp_apply, hstage', Stage.drains])
        rw [hsignal] at hset
        exact nomatch hset
      exact ⟨hother.1, (Function.update_of_ne hne ..).trans hother.2⟩
    | signalling block' pos' =>
      rw [hstage'] at hother
      have hne : pos' ≠ pos := by
        rintro rfl
        exact h.fills.alone hfills u hu (by rw [Function.comp_apply, hstage', Stage.fills])
      exact ⟨hother.1, (Function.update_of_ne hne ..).trans hother.2⟩
    | idle => trivial
    | testing | loading | checking | storing =>
      rw [hstage'] at hother
      exact hother

theorem Inv.signal (h : Inv cfg st) {block pos : ℕ} (hstage : st.stage t = .signalling block pos) :
    Inv cfg { st.setStage t .idle with
      signalBuffer := Function.update st.signalBuffer pos true } := by
  have hfits := h.fits t
  rw [hstage] at hfits
  have hfills : (st.stage t).fills = some pos := by rw [hstage, Stage.fills]
  have hsignal := h.fills.flag t pos hfills
  refine ⟨?_, ?_, ?_, ?_, h.counter, h.lap⟩
  · obtain ⟨place, hplace⟩ := h.placed
    exact hplace.put hstage hfits.1 hsignal hfits.2
  · refine (h.leave_drains t).setFlag ?_ true
    refine forall_setStage (P := fun _ s => s.drains ≠ some pos) ?_ fun heq => nomatch heq
    intro u hu
    rw [h.drains.flag u pos hu] at hsignal
    exact nomatch hsignal
  · refine (h.leave_fills t).setFlag ?_ true
    refine (Function.forall_update_iff st.stage fun _ s => s.fills ≠ some pos).mpr ⟨?_, ?_⟩
    · exact fun heq => nomatch heq
    · exact h.fills.alone hfills
  · exact forall_setStage (P := fun _ s' => s'.Fits cfg st.blocks) h.fits trivial

theorem step_allocate_iff :
    step cfg st (.allocate t) = some next ↔ st.stage t = .idle ∧
      next = { st.setStage t (.testing (st.alloPos % cfg.block_count)) with
        alloPos := (st.alloPos + 1) % 2 ^ 64 } := by
  simp only [step]
  cases hstage : st.stage t <;> simp [eq_comm]

theorem step_free_iff {block : ℕ} :
    step cfg st (.free t block) = some next ↔ st.stage t = .idle ∧ 0 < st.held block ∧
      next = { st.setStage t (.checking block (st.freePos % cfg.block_count)) with
        freePos := (st.freePos + 1) % 2 ^ 64
        held := Function.update st.held block (st.held block - 1) } := by
  simp only [step]
  cases hstage : st.stage t <;> simp [eq_comm]

theorem Inv.advance (h : Inv cfg st) (hturn : st.Turn t (st.stage t))
    (hstep : st.advance t = some next) : Inv cfg next := by
  have hfits := h.fits t
  cases hstage : st.stage t with
  | idle =>
    rw [State.advance, hstage] at hstep
    cases hstep
  | testing pos =>
    rw [hstage] at hturn hfits
    rw [State.advance, hstage] at hstep
    simp only at hstep
    split_ifs at hstep with hsignal
    · cases hstep
      refine h.setStage (by rw [hstage]; rfl) ?_ (fun _ heq => nomatch heq) hfits
      rintro _ ⟨⟩
      exact ⟨hsignal, hturn hsignal⟩
    · cases hstep
      exact h.idle (by rw [hstage]; rfl)
  | loading pos =>
    rw [hstage] at hfits
    have hdrains : (st.stage t).drains = some pos := by rw [hstage, Stage.drains]
    rw [State.advance, hstage] at hstep
    cases hstep
    refine h.setStage (by rw [hstage]; rfl) ?_ (fun _ heq => nomatch heq) ⟨hfits, rfl⟩
    rintro _ ⟨⟩
    exact ⟨h.drains.flag t pos hdrains, h.drains.alone hdrains⟩
  | clearing data pos =>
    rw [State.advance, hstage] at hstep
    cases hstep
    exact h.clear hstage
  | checking block pos =>
    rw [hstage] at hturn hfits
    have hclear : ¬ st.signalBuffer pos = true := by
      rw [hturn.1]
      exact Bool.false_ne_true
    rw [State.advance, hstage] at hstep
    simp only [if_neg hclear] at hstep
    cases hstep
    refine h.setStage (by rw [hstage]; rfl) (fun _ heq => nomatch heq) ?_ hfits
    rintro _ ⟨⟩
    exact hturn
  | storing block pos =>
    rw [State.advance, hstage] at hstep
    cases hstep
    exact h.store hstage
  | signalling block pos =>
    rw [State.advance, hstage] at hstep
    cases hstep
    exact h.signal hstage

theorem Inv.step {label : Label Thread} (h : Inv cfg st) (hallowed : TakesTurns cfg st label)
    (hstep : (system cfg Thread).step st label = some next) : Inv cfg next := by
  cases label with
  | allocate t =>
    obtain ⟨hidle, rfl⟩ := step_allocate_iff.mp hstep
    exact h.allocate hidle hallowed
  | free t block =>
    obtain ⟨hidle, hheld, rfl⟩ := step_free_iff.mp hstep
    exact h.free hidle hheld
  | advance t => exact h.advance hallowed hstep

theorem inv_of_reachable (h : (system cfg Thread).Reachable (TakesTurns cfg) st) : Inv cfg st :=
  h.invariant (Inv cfg) inv_init Inv.step

/-! ## All blocks again -/

/-- The slot of the call after `calls` others. -/
def slotAt (cfg : PointerRingPoolConfig) (alloPos calls : ℕ) : ℕ :=
  (alloPos + calls) % 2 ^ 64 % cfg.block_count

/-- The calls of one lap come to different slots. -/
theorem slotAt_inj {alloPos i j : ℕ}
    (hlap : cfg.block_count ∣ 2 ^ 64 ∨ alloPos + cfg.block_count ≤ 2 ^ 64)
    (hi : i < cfg.block_count) (hj : j < cfg.block_count)
    (h : slotAt cfg alloPos i = slotAt cfg alloPos j) : i = j := by
  have hmod : (alloPos + i) % cfg.block_count = (alloPos + j) % cfg.block_count := by
    unfold slotAt at h
    rcases hlap with hdvd | hle
    · rwa [Nat.mod_mod_of_dvd _ hdvd, Nat.mod_mod_of_dvd _ hdvd] at h
    · have hi' : (alloPos + i) % 2 ^ 64 = alloPos + i := Nat.mod_eq_of_lt (by omega)
      have hj' : (alloPos + j) % 2 ^ 64 = alloPos + j := Nat.mod_eq_of_lt (by omega)
      rwa [hi', hj'] at h
  have heq := eq_of_mod_eq hmod (by omega) (by omega)
  omega

/-- A call of `allocate` that nothing disturbs, at a slot with its flag set. -/
theorem run_allocateCall (hidle : st.stage t = .idle)
    (hsignal : st.signalBuffer (st.alloPos % cfg.block_count) = true) :
    (system cfg Thread).run st (allocateCall t) = some
      { st with
        alloPos := (st.alloPos + 1) % 2 ^ 64
        signalBuffer := Function.update st.signalBuffer (st.alloPos % cfg.block_count) false
        held := Function.update st.held (st.blocks (st.alloPos % cfg.block_count))
          (st.held (st.blocks (st.alloPos % cfg.block_count)) + 1) } := by
  have hdrawn : step cfg st (.allocate t) = some
      { st.setStage t (.testing (st.alloPos % cfg.block_count)) with
        alloPos := (st.alloPos + 1) % 2 ^ 64 } := step_allocate_iff.mpr ⟨hidle, rfl⟩
  have hidle' : Function.update st.stage t .idle = st.stage := by
    rw [← hidle, Function.update_eq_self]
  refine TransitionSystem.run_cons.mpr ⟨_, hdrawn, ?_⟩
  simp [TransitionSystem.run, system, step, State.advance, State.setStage, hsignal, hidle']

/-- After some calls of `allocate` in a state with all flags set. -/
structure Drained (cfg : PointerRingPoolConfig) (st last : State Thread) (calls : ℕ) : Prop where
  stage : last.stage = st.stage
  blocks : last.blocks = st.blocks
  alloPos : last.alloPos = (st.alloPos + calls) % 2 ^ 64
  left : ∀ pos < cfg.block_count, (∀ i < calls, slotAt cfg st.alloPos i ≠ pos) →
    last.signalBuffer pos = true ∧ last.held (st.blocks pos) = 0
  taken : ∀ i < calls, last.held (st.blocks (slotAt cfg st.alloPos i)) = 1

/-- All slots have their flags set, and a block each that nobody holds. -/
structure Full (cfg : PointerRingPoolConfig) (st : State Thread) : Prop where
  stage : ∀ t, st.stage t = .idle
  ready : ∀ pos < cfg.block_count, st.signalBuffer pos = true ∧ st.held (st.blocks pos) = 0
  inj : ∀ pos < cfg.block_count, ∀ other < cfg.block_count,
    st.blocks pos = st.blocks other → pos = other
  cover : ∀ block < cfg.block_count, ∃ pos < cfg.block_count, st.blocks pos = block

theorem exists_drained (hfull : Full cfg st) (hcounter : st.alloPos < 2 ^ 64)
    (hlap : cfg.block_count ∣ 2 ^ 64 ∨ st.alloPos + cfg.block_count ≤ 2 ^ 64)
    (calls : List Thread) (hcalls : calls.length ≤ cfg.block_count) :
    ∃ last, (system cfg Thread).run st (calls.flatMap allocateCall) = some last ∧
      Drained cfg st last calls.length := by
  have hslot : ∀ i, slotAt cfg st.alloPos i < cfg.block_count := fun i =>
    Nat.mod_lt _ cfg.block_count_pos
  induction calls using List.reverseRecOn with
  | nil =>
    refine ⟨st, rfl, rfl, rfl, (Nat.mod_eq_of_lt hcounter).symm, fun pos hpos _ => ?_, ?_⟩
    · exact hfull.ready pos hpos
    · exact fun i hi => absurd hi (Nat.not_lt_zero i)
  | append_singleton calls t ih =>
    rw [List.length_append, List.length_singleton] at hcalls ⊢
    obtain ⟨last, hrun, hdrained⟩ := ih (by omega)
    have hidle : last.stage t = .idle := by rw [hdrained.stage, hfull.stage]
    have hnext : last.alloPos % cfg.block_count = slotAt cfg st.alloPos calls.length := by
      rw [hdrained.alloPos]
      rfl
    have hfresh : ∀ i < calls.length,
        slotAt cfg st.alloPos i ≠ slotAt cfg st.alloPos calls.length := by
      intro i hi heq
      have := slotAt_inj hlap (by omega) (by omega) heq
      omega
    obtain ⟨hsignal, hheld⟩ := hdrained.left _ (hslot calls.length) hfresh
    have hcall := run_allocateCall hidle (hnext ▸ hsignal)
    rw [hnext, hdrained.blocks] at hcall
    have hrun' := TransitionSystem.run_append.mpr ⟨last, hrun, hcall⟩
    rw [List.flatMap_append, List.flatMap_singleton]
    refine ⟨_, hrun', hdrained.stage, rfl, ?_, ?_, ?_⟩
    · change (last.alloPos + 1) % 2 ^ 64 = _
      rw [hdrained.alloPos, Nat.mod_add_mod, Nat.add_assoc]
    · intro pos hpos hunused
      have hne : pos ≠ slotAt cfg st.alloPos calls.length := (hunused _ (Nat.lt_succ_self _)).symm
      have hblock : st.blocks pos ≠ st.blocks (slotAt cfg st.alloPos calls.length) :=
        fun heq => hne (hfull.inj pos hpos _ (hslot _) heq)
      simp only [Function.update_of_ne hne, Function.update_of_ne hblock]
      exact hdrained.left pos hpos fun i hi => hunused i (Nat.lt_succ_of_lt hi)
    · intro i hi
      rcases Nat.lt_succ_iff_lt_or_eq.mp hi with hlt | rfl
      · have hblock : st.blocks (slotAt cfg st.alloPos i) ≠
            st.blocks (slotAt cfg st.alloPos calls.length) :=
          fun heq => hfresh i hlt (hfull.inj _ (hslot i) _ (hslot _) heq)
        simp only [Function.update_of_ne hblock]
        exact hdrained.taken i hlt
      · simp only [Function.update_self, hheld]

omit [DecidableEq Thread] in
/-- When no block is held, every slot has one: there are as many slots as blocks. -/
theorem full_of_free (h : Inv cfg st) (hheld : ∀ block < cfg.block_count, st.held block = 0)
    (hidle : ∀ t, st.stage t = .idle) : Full cfg st := by
  obtain ⟨place, hplace⟩ := h.placed
  have hready : ∀ block : Fin cfg.block_count, ∃ pos : Fin cfg.block_count,
      st.Ready cfg pos block := by
    intro block
    cases hat : place block with
    | caller =>
      have hone := hplace.held block block.isLt hat
      rw [hheld block block.isLt] at hone
      exact nomatch hone
    | call t =>
      have hcall := (hplace.call block t).mpr ⟨block.isLt, hat⟩
      rw [hidle t] at hcall
      exact nomatch hcall
    | slot pos =>
      have hpos := (hplace.slot block pos).mpr ⟨block.isLt, hat⟩
      exact ⟨⟨pos, hpos.1⟩, hpos⟩
  choose slotOf hslotOf using hready
  have hinj : Function.Injective slotOf := by
    intro b c heq
    apply Fin.ext
    rw [← (hslotOf b).2.2, ← (hslotOf c).2.2, heq]
  -- every slot is the one of some block
  have hsurj : Function.Surjective slotOf := Finite.injective_iff_surjective.mp hinj
  have hback : ∀ pos < cfg.block_count, ∃ block : Fin cfg.block_count,
      (slotOf block : ℕ) = pos ∧ st.Ready cfg pos block := by
    intro pos hpos
    obtain ⟨block, hblock⟩ := hsurj ⟨pos, hpos⟩
    have heq : (slotOf block : ℕ) = pos := congrArg Fin.val hblock
    exact ⟨block, heq, heq ▸ hslotOf block⟩
  refine ⟨hidle, ?_, ?_, ?_⟩
  · intro pos hpos
    obtain ⟨block, -, -, hsignal, hat⟩ := hback pos hpos
    exact ⟨hsignal, (congrArg st.held hat).trans (hheld block block.isLt)⟩
  · intro pos hpos other hother heq
    obtain ⟨b, rfl, -, -, hb⟩ := hback pos hpos
    obtain ⟨c, rfl, -, -, hc⟩ := hback other hother
    have hbc : b = c := Fin.ext (by rw [← hb, ← hc, heq])
    rw [hbc]
  · intro block hblock
    exact ⟨_, (slotOf ⟨block, hblock⟩).isLt, (hslotOf ⟨block, hblock⟩).2.2⟩

theorem Inv.reusable (h : Inv cfg st) (hheld : ∀ block < cfg.block_count, st.held block = 0)
    (hidle : ∀ t, st.stage t = .idle) (calls : List Thread)
    (hcalls : calls.length = cfg.block_count) :
    ∃ last, (system cfg Thread).run st (calls.flatMap allocateCall) = some last ∧
      ∀ block < cfg.block_count, last.held block = 1 := by
  have hfull := full_of_free h hheld hidle
  obtain ⟨last, hrun, hdrained⟩ := exists_drained hfull h.counter h.lap calls hcalls.le
  refine ⟨last, hrun, fun block hblock => ?_⟩
  -- the calls of a lap come to every slot
  let slotOf : Fin cfg.block_count → Fin cfg.block_count := fun i =>
    ⟨slotAt cfg st.alloPos i, Nat.mod_lt _ cfg.block_count_pos⟩
  have hinj : Function.Injective slotOf := by
    intro i j heq
    exact Fin.ext (slotAt_inj h.lap i.isLt j.isLt (congrArg Fin.val heq))
  obtain ⟨pos, hpos, rfl⟩ := hfull.cover block hblock
  obtain ⟨i, hi⟩ := Finite.injective_iff_surjective.mp hinj ⟨pos, hpos⟩
  have heq : slotAt cfg st.alloPos i = pos := congrArg Fin.val hi
  rw [← heq]
  exact hdrained.taken i (by rw [hcalls]; exact i.isLt)

/-- As long as the threads take turns at the slots and no `free` is refused, the pool conserves
its blocks. -/
theorem conserves_of_turns (h : (system cfg Thread).Reachable (TakesTurns cfg) st) :
    Conserves cfg st where
  placed := by
    obtain ⟨place, hplace⟩ := (inv_of_reachable h).placed
    exact fun _ => hplace.lies
  reusable := (inv_of_reachable h).reusable

def twoBlocks : PointerRingPoolConfig where
  block_count := 2
  block_count_pos := Nat.two_pos
  block_count_lt := Nat.le_of_ble_eq_true rfl
  isPowerOfTwo := rfl

/-- Two threads take a block each, and give them back. -/
def turnsRun : List (Label Bool) :=
  [.allocate true, .allocate false, .advance true, .advance false, .advance true, .advance true,
    .advance false, .advance false, .free true 1, .free false 0, .advance true, .advance true,
    .advance true, .advance false, .advance false, .advance false]

theorem conserves_of_turns_twoThreads : ∃ st : State Bool,
    st.blocks 0 = 1 ∧ st.freePos = 2 ∧ Conserves twoBlocks st := by
  obtain ⟨st, hst, hblocks, hfreePos⟩ := TransitionSystem.exists_reachable
    (system twoBlocks Bool) turnsRun (fun st => st.blocks 0 = 1 ∧ st.freePos = 2)
    (show TransitionSystem.RunAllowed _ (TakesTurns twoBlocks) _ _ by decide +kernel)
    (by decide +kernel)
  exact ⟨st, hblocks, hfreePos, conserves_of_turns hst⟩

/-- An `allocate` of the empty pool uses up a position; after it a `free` comes to a slot that
is not empty. -/
def refusedRun : List (Label Unit) :=
  allocateCall () ++ allocateCall () ++ [.allocate (), .advance ()] ++
    [.free () 0, .advance (), .advance (), .advance ()] ++
    [.free () 1, .advance (), .advance (), .advance ()] ++ allocateCall () ++
    [.free () 1, .advance ()]

/-- Two calls of `allocate` a lap apart pass the test of one slot. -/
def lappedRun : List (Label (Option Bool)) :=
  [.allocate (some true), .allocate none, .allocate (some false), .advance (some true),
    .advance (some false), .advance (some true), .advance (some false), .advance (some true),
    .advance (some false)]

theorem blocks_lost_and_shared :
    (∃ st, (system twoBlocks Unit).Reachable (fun _ _ => True) st ∧ ¬ Conserves twoBlocks st) ∧
      ∃ st, (system twoBlocks (Option Bool)).Reachable (fun _ _ => True) st ∧
        ¬ Conserves twoBlocks st := by
  constructor
  · obtain ⟨st, hst, hheld, hcall, hzero, hone⟩ := TransitionSystem.exists_reachable
      (system twoBlocks Unit) refusedRun
      (fun st => st.held 1 = 0 ∧ (st.stage ()).block = none ∧ st.blocks 0 = 0 ∧
        st.signalBuffer 1 = false)
      (TransitionSystem.runAllowed_true _) (by decide +kernel)
    refine ⟨st, hst, fun h => ?_⟩
    cases h.placed 1 (Nat.lt_succ_self 1) with
    | held count =>
      rw [hheld] at count
      exact nomatch count
    | freed _ call =>
      obtain ⟨t, ht, -⟩ := call
      rw [hcall] at ht
      exact nomatch ht
    | ready _ _ slot =>
      obtain ⟨pos, ⟨hpos, hsignal, hat⟩, -⟩ := slot
      have hpos' : pos < 2 := hpos
      interval_cases pos
      · rw [hzero] at hat
        exact nomatch hat
      · rw [hone] at hsignal
        exact nomatch hsignal
  · obtain ⟨st, hst, hheld⟩ := TransitionSystem.exists_reachable
      (system twoBlocks (Option Bool)) lappedRun (fun st => st.held 0 = 2)
      (TransitionSystem.runAllowed_true _) (by decide +kernel)
    refine ⟨st, hst, fun h => ?_⟩
    cases h.placed 0 (Nat.zero_lt_succ 1) with
    | held count | freed count | ready count =>
      rw [hheld] at count
      exact nomatch count

end PointerRingPool

end TrafficDatabase
