import TrafficDatabase.Query.Tokens

/-!
# Splitting keeps the text

What `splitExpression` has put into its list and into `tmp` is the text it has read, but
for the blanks (`Split`).  A token it has emitted is one it makes again when it reads that
token by itself, since what it does at a character depends on `tmp` only
(`Splitter.step_behind`); so the tokens with blanks between them are split into the same
tokens.
-/

namespace TrafficDatabase

namespace Query

namespace Splitter

/-- The tokens before those of the splitter. -/
def behind (front : List Token) (st : Splitter) : Splitter :=
  { st with expList := front ++ st.expList }

/-- What is in `tmp` is a token that may end here: `PUSH_TMP` does not refuse it. -/
def Flushes (st : Splitter) : Prop :=
  ∃ op ∈ st.tmp.getLast?, op ∉ ['=', '|', '&', '^']

variable {front : List Token} {st next : Splitter} {c : Char}

theorem emit_behind : (st.behind front).emit = st.emit.behind front := by
  simp [emit, behind]

theorem pushTmp_behind : (st.behind front).pushTmp = st.pushTmp.map (behind front) := by
  have htmp : (st.behind front).tmp = st.tmp := rfl
  unfold pushTmp
  rw [htmp, emit_behind]
  cases st.tmp.getLast? with
  | none => rfl
  | some op =>
      simp only
      split_ifs <;> rfl

theorem append_behind : (st.behind front).append c = (st.append c).behind front := rfl

/-- A turn of the loop depends on `tmp` only. -/
theorem step_behind : (st.behind front).step c = (st.step c).map (behind front) := by
  unfold step
  have htmp : (st.behind front).tmp = st.tmp := rfl
  have hfirst : (if c ≠ '=' ∧ (st.behind front).tmp.getLast?.any (· ∈ ['!', '<', '>']) then
        (st.behind front).emit else st.behind front) =
      (if c ≠ '=' ∧ st.tmp.getLast?.any (· ∈ ['!', '<', '>']) then st.emit else st).behind
        front := by
    rw [htmp, apply_ite (behind front), emit_behind]
  simp only [hfirst]
  generalize (if c ≠ '=' ∧ st.tmp.getLast?.any (· ∈ ['!', '<', '>']) then st.emit else st) = st
  have htmp : (st.behind front).tmp = st.tmp := rfl
  simp only [htmp, pushTmp_behind, append_behind, emit_behind]
  split_ifs
  all_goals
    simp only [Option.map_some, Option.map_map, Function.comp_def, append_behind, emit_behind]

theorem pushTmp_of_tmp_eq_nil (h : st.tmp = []) : st.pushTmp = some st := by
  unfold pushTmp
  rw [h]
  rfl

theorem pushTmp_of_flushes (h : st.Flushes) : st.pushTmp = some st.emit := by
  obtain ⟨op, hlast, hop⟩ := h
  unfold pushTmp
  rw [hlast]
  exact if_neg hop

/-- `PUSH_TMP` leaves an empty `tmp`, or empties it. -/
theorem pushTmp_cases (h : st.pushTmp = some next) :
    st.tmp = [] ∧ next = st ∨ st.Flushes ∧ next = st.emit := by
  unfold pushTmp at h
  cases hlast : st.tmp.getLast? with
  | none =>
      rw [hlast] at h
      exact .inl ⟨List.getLast?_eq_none_iff.mp hlast, (Option.some.inj h).symm⟩
  | some op =>
      rw [hlast] at h
      simp only at h
      split_ifs at h with hop
      exact .inr ⟨⟨op, hlast, hop⟩, (Option.some.inj h).symm⟩

/-- The first test of a turn: an operator of one character is complete. -/
theorem flushes_of_any (h : st.tmp.getLast?.any (· ∈ ['!', '<', '>']) = true) : st.Flushes := by
  obtain ⟨op, hlast, hop⟩ := (Option.any_eq_true ..).mp h
  refine ⟨op, hlast, fun hmem => ?_⟩
  simp only [decide_eq_true_eq, List.mem_cons, List.not_mem_nil, or_false] at hop hmem
  rcases hop with rfl | rfl | rfl <;> simp at hmem

/-- A turn with an empty `tmp`. -/
theorem step_of_tmp_eq_nil (h : st.tmp = []) (hblank : c ≠ ' ') :
    st.step c = some (if c ∈ ['(', ')', '{', '}', '[', ']', ','] then (st.append c).emit
      else st.append c) := by
  unfold step
  simp only [h, List.getLast?_nil, Option.any_none, Bool.false_eq_true, and_false, if_false,
    if_neg hblank, pushTmp_of_tmp_eq_nil h, Option.map_some, reduceCtorEq, ite_self]
  split_ifs <;> rfl

/-- The first test of a turn makes a token of `tmp`. -/
theorem step_of_any (h : c ≠ '=' ∧ st.tmp.getLast?.any (· ∈ ['!', '<', '>']) = true) :
    st.step c = st.emit.step c := by
  have hempty : st.emit.tmp.getLast?.any (· ∈ ['!', '<', '>']) = false := rfl
  unfold step
  simp only [if_pos h, hempty, Bool.false_eq_true, and_false, if_false]

theorem step_blank_of_flushes (h : st.Flushes) : st.step ' ' = some st.emit := by
  by_cases hsign : ' ' ≠ '=' ∧ st.tmp.getLast?.any (· ∈ ['!', '<', '>']) = true
  · rw [step_of_any hsign]
    rfl
  · unfold step
    rw [if_neg hsign]
    exact pushTmp_of_flushes h

/-- At a blank, `tmp` becomes a token; any other character is put behind it, or behind an
empty `tmp` once it has become a token. -/
theorem step_cases (h : st.step c = some next) :
    c = ' ' ∧ (st.tmp = [] ∧ next = st ∨ st.Flushes ∧ next = st.emit) ∨
      c ≠ ' ' ∧ (next = st.append c ∨ next = (st.append c).emit ∨
        st.Flushes ∧ st.emit.step c = some next) := by
  by_cases hsign : c ≠ '=' ∧ st.tmp.getLast?.any (· ∈ ['!', '<', '>']) = true
  · have hflushes := flushes_of_any hsign.2
    rw [step_of_any hsign] at h
    by_cases hblank : c = ' '
    · refine .inl ⟨hblank, .inr ⟨hflushes, ?_⟩⟩
      rw [hblank] at h
      exact (Option.some.inj h).symm
    · exact .inr ⟨hblank, .inr (.inr ⟨hflushes, h⟩)⟩
  · unfold step at h
    rw [if_neg hsign] at h
    simp only at h
    -- what `PUSH_TMP` leaves is followed by the character
    have hpushed : ∀ {f : Splitter → Splitter}, st.pushTmp.map f = some next → c ≠ ' ' →
        (∀ st : Splitter, f st =
          if c ∈ ['(', ')', '{', '}', '[', ']', ','] then (st.append c).emit
          else st.append c) →
        next = st.append c ∨ next = (st.append c).emit ∨
          st.Flushes ∧ st.emit.step c = some next := by
      intro f hmap hblank hf
      obtain ⟨pushed, hpush, rfl⟩ := Option.map_eq_some_iff.mp hmap
      rcases pushTmp_cases hpush with ⟨-, rfl⟩ | ⟨hflushes, rfl⟩
      · rw [hf]
        split_ifs
        · exact .inr (.inl rfl)
        · exact .inl rfl
      · rw [step_of_tmp_eq_nil rfl hblank, hf]
        exact .inr (.inr ⟨hflushes, rfl⟩)
    split_ifs at h with hblank hbracket hop hequals hdouble hpair hsame
    · exact .inl ⟨hblank, pushTmp_cases h⟩
    all_goals refine .inr ⟨hblank, ?_⟩
    · exact hpushed h hblank fun _ => (if_pos hbracket).symm
    · exact hpushed h hblank fun _ => (if_neg hbracket).symm
    · exact .inr (.inl (Option.some.inj h).symm)
    · exact hpushed h hblank fun _ => (if_neg hbracket).symm
    · exact .inr (.inl (Option.some.inj h).symm)
    · exact hpushed h hblank fun _ => (if_neg hbracket).symm
    · exact .inl (Option.some.inj h).symm

end Splitter

/-! ## The text and the tokens -/

open Splitter

/-- The splitter makes the token when it reads it by itself and then a blank or the end. -/
def Whole (s : Token) : Prop :=
  s ≠ [] ∧ ∀ front : List Token, ∃ st : Splitter, s.foldlM step ⟨front, []⟩ = some st ∧
    st.step ' ' = some ⟨front ++ [s], []⟩ ∧ st.pushTmp = some ⟨front ++ [s], []⟩

/-- What the splitter has of the text it has read. -/
structure Split (read : List Char) (st : Splitter) : Prop where
  text : st.expList.flatten ++ st.tmp = read.filter (· ≠ ' ')
  whole : ∀ s ∈ st.expList, Whole s
  again : ∀ front : List Token, st.tmp.foldlM step ⟨front, []⟩ = some ⟨front, st.tmp⟩

variable {read : List Char} {st next : Splitter} {c : Char}

theorem split_nil : Split [] ⟨[], []⟩ where
  text := rfl
  whole := nofun
  again _ := rfl

/-- `tmp` becomes a token. -/
theorem Split.emit (h : Split read st) (hflushes : st.Flushes) : Split read st.emit := by
  have hne : st.tmp ≠ [] := by
    obtain ⟨op, hlast, -⟩ := hflushes
    rintro hnil
    rw [hnil] at hlast
    cases hlast
  refine ⟨?_, fun s hs => ?_, fun _ => rfl⟩
  · rw [← h.text]
    simp [Splitter.emit]
  · rcases List.mem_append.mp hs with hs | hs
    · exact h.whole s hs
    · rw [List.mem_singleton.mp hs]
      refine ⟨hne, fun front => ⟨⟨front, st.tmp⟩, h.again front, ?_, ?_⟩⟩
      · exact step_blank_of_flushes hflushes
      · exact pushTmp_of_flushes hflushes

/-- A turn does the same behind other tokens. -/
theorem step_front {added : List Token} (hstep : st.step c = some next)
    (hadded : next.expList = st.expList ++ added) (front : List Token) :
    Splitter.step ⟨front, st.tmp⟩ c = some ⟨front ++ added, next.tmp⟩ := by
  have hbehind : ∀ front, (⟨front, st.tmp⟩ : Splitter) = behind front ⟨[], st.tmp⟩ := by
    simp [behind]
  rw [show st = behind st.expList ⟨[], st.tmp⟩ from hbehind st.expList, step_behind] at hstep
  obtain ⟨done, hdone, rfl⟩ := Option.map_eq_some_iff.mp hstep
  rw [hbehind front, step_behind, hdone, ← List.append_cancel_left hadded]
  rfl

/-- A character goes behind `tmp`. -/
theorem Split.append (h : Split read st) (hblank : c ≠ ' ')
    (hstep : st.step c = some (st.append c)) : Split (read ++ [c]) (st.append c) := by
  refine ⟨?_, h.whole, fun front => ?_⟩
  · rw [List.filter_append, ← h.text]
    simp [Splitter.append, hblank]
  · have hagain := step_front hstep (List.append_nil _).symm front
    rw [List.append_nil] at hagain
    simp only [Splitter.append, List.foldlM_append, h.again, Option.bind_eq_bind, Option.bind_some,
      List.foldlM_cons, List.foldlM_nil] at hagain ⊢
    rw [hagain]
    rfl

/-- A character completes a token. -/
theorem Split.complete (h : Split read st) (hblank : c ≠ ' ')
    (hstep : st.step c = some (st.append c).emit) :
    Split (read ++ [c]) (st.append c).emit := by
  refine ⟨?_, fun s hs => ?_, fun _ => rfl⟩
  · rw [List.filter_append, ← h.text]
    simp [Splitter.append, Splitter.emit, hblank]
  · rcases List.mem_append.mp hs with hs | hs
    · exact h.whole s hs
    · rw [List.mem_singleton.mp hs]
      refine ⟨List.concat_ne_nil _ _, fun front =>
        ⟨⟨front ++ [(st.append c).tmp], []⟩, ?_, rfl, rfl⟩⟩
      have hagain := step_front hstep rfl front
      simp only [Splitter.append, List.foldlM_append, h.again, Option.bind_eq_bind,
        Option.bind_some, List.foldlM_cons, List.foldlM_nil] at hagain ⊢
      rw [hagain]
      rfl

theorem Split.step (h : Split read st) (hstep : st.step c = some next) :
    Split (read ++ [c]) next := by
  have hplain : ∀ {st next : Splitter}, Split read st → st.step c = some next → c ≠ ' ' →
      (next = st.append c ∨ next = (st.append c).emit) → Split (read ++ [c]) next := by
    rintro st next h hstep hblank (rfl | rfl)
    · exact h.append hblank hstep
    · exact h.complete hblank hstep
  rcases step_cases hstep with ⟨rfl, ⟨-, rfl⟩ | ⟨hflushes, rfl⟩⟩ |
    ⟨hblank, happend | hcomplete | ⟨hflushes, hempty⟩⟩
  · exact ⟨by rw [h.text, List.filter_append]; simp, h.whole, h.again⟩
  · have hemit := h.emit hflushes
    exact ⟨by rw [hemit.text, List.filter_append]; simp, hemit.whole, hemit.again⟩
  · exact hplain h hstep hblank (.inl happend)
  · exact hplain h hstep hblank (.inr hcomplete)
  · refine hplain (h.emit hflushes) hempty hblank ?_
    rw [step_of_tmp_eq_nil rfl hblank] at hempty
    rw [← Option.some.inj hempty]
    split_ifs
    · exact .inr rfl
    · exact .inl rfl

theorem Split.run (h : Split read st) {text : List Char}
    (hrun : text.foldlM Splitter.step st = some next) : Split (read ++ text) next := by
  induction text generalizing read st with
  | nil =>
      obtain rfl := Option.some.inj hrun
      rwa [List.append_nil]
  | cons c rest ih =>
      obtain ⟨middle, hstep, hrest⟩ := Option.bind_eq_some_iff.mp hrun
      have hsplit := ih (h.step hstep) hrest
      rwa [List.append_assoc, List.singleton_append] at hsplit

/-- Tokens with blanks between them are split into these tokens. -/
theorem foldlM_intercalate {tokens : List Token} (h : ∀ s ∈ tokens, Whole s)
    (front : List Token) :
    (([' '].intercalate tokens).foldlM Splitter.step ⟨front, []⟩).bind pushTmp =
      some ⟨front ++ tokens, []⟩ := by
  induction tokens generalizing front with
  | nil => simp [List.intercalate, pushTmp]
  | cons s rest ih =>
      obtain ⟨st, hrun, hblank, hpush⟩ := (h s List.mem_cons_self).2 front
      cases rest with
      | nil =>
          rw [List.intercalate_singleton, hrun]
          exact hpush
      | cons next rest =>
          have hrest := ih (fun s hs => h s (List.mem_cons_of_mem _ hs)) (front ++ [s])
          rw [List.intercalate_cons_cons, List.foldlM_append, List.foldlM_append, hrun]
          simp only [Option.bind_eq_bind, Option.bind_some, List.foldlM_cons, List.foldlM_nil,
            hblank]
          rw [List.append_assoc, List.singleton_append] at hrest
          exact hrest

/-- **The tokenizer loses and invents nothing**: it refuses a text, or makes tokens of all
of it but the blanks, and the same tokens of these tokens with blanks between them. -/
theorem splitExpression_keeps (originExpression : List Char) :
    splitExpression originExpression = [] ∨
      (∀ s ∈ splitExpression originExpression, s ≠ []) ∧
        (splitExpression originExpression).flatten = originExpression.filter (· ≠ ' ') ∧
        splitExpression ([' '].intercalate (splitExpression originExpression)) =
          splitExpression originExpression := by
  cases hrun : (originExpression.foldlM Splitter.step ⟨[], []⟩).bind pushTmp with
  | none =>
      left
      unfold splitExpression
      rw [hrun]
  | some last =>
      right
      have hsplit : splitExpression originExpression = last.expList := by
        unfold splitExpression
        rw [hrun]
      obtain ⟨st, hread, hpush⟩ := Option.bind_eq_some_iff.mp hrun
      have hst : Split originExpression st := split_nil.run hread
      have hlast : Split originExpression last ∧ last.tmp = [] := by
        rcases pushTmp_cases hpush with ⟨hempty, rfl⟩ | ⟨hflushes, rfl⟩
        · exact ⟨hst, hempty⟩
        · exact ⟨hst.emit hflushes, rfl⟩
      obtain ⟨hlast, hempty⟩ := hlast
      have htext := hlast.text
      rw [hempty, List.append_nil] at htext
      rw [hsplit]
      refine ⟨fun s hs => (hlast.whole s hs).1, htext, ?_⟩
      unfold splitExpression
      rw [foldlM_intercalate hlast.whole]
      rfl

example : splitExpression "(srcport==80)&& ! in\x7b a,=b\x7d".toList =
    ["(", "srcport", "==", "80", ")", "&&", "!", "in", "\x7b", "a", ",", "=b", "\x7d"].map
      String.toList := by
  decide +kernel

end Query

end TrafficDatabase
