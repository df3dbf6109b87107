import FormStaging.Proofs.Rendering.Positions
import FormStaging.Proofs.Rendering.Text
import Mathlib.Data.String.Basic

/-!
# The spans of a target

`Graph.write` carries out a list of pending steps, and notes where a target stands when the target is
complete. This module says what it writes and notes in terms of the unfolded expression:
`Graph.spanAt g i p` is where the node at position `p` stands in the text of node `i`, counted from the
texts of the pieces before it, and a rendering gives the text of the term and the spans at the positions
where the target is shown (`rendering_eq`).

The text at the span of a position is the text of the node there (`covers_spanAt`), and of two positions
of a node the one further to the left ends before the other begins (`stop_spanAt_le`). All that a
rendering says of a target is put together in `spans_exact`.
-/

set_option autoImplicit false

namespace FormStaging

/-! ## Spans of a text -/

namespace Span

/-- The span in a text with more bytes before it. -/
def shift (s : Span) (bytes : Nat) : Span := ⟨s.start + bytes, s.stop + bytes⟩

theorem shift_shift (s : Span) (a b : Nat) : (s.shift a).shift b = s.shift (a + b) := by
  simp [shift, Nat.add_assoc]

/-- A part of a text stands at a span. -/
def Covers (s : Span) (text part : String) : Prop :=
  ∃ before after, text = before ++ part ++ after ∧
    s = ⟨before.utf8ByteSize, before.utf8ByteSize + part.utf8ByteSize⟩

namespace Covers

variable {s : Span} {text part before after : String}

theorem whole (text : String) : Covers ⟨0, text.utf8ByteSize⟩ text text :=
  ⟨"", "", by simp, by simp⟩

/-- A part of a part of a text stands further to the right. -/
theorem inside (h : s.Covers text part) :
    (s.shift before.utf8ByteSize).Covers (before ++ text ++ after) part := by
  obtain ⟨left, right, rfl, rfl⟩ := h
  refine ⟨before ++ left, right ++ after, by simp [String.append_assoc], ?_⟩
  simp [shift, String.utf8ByteSize_append, Nat.add_comm, Nat.add_left_comm]

/-- A span ends in its text. -/
theorem stop_le (h : s.Covers text part) : s.stop ≤ text.utf8ByteSize := by
  obtain ⟨before, after, rfl, rfl⟩ := h
  simp [String.utf8ByteSize_append]

/-- A span begins between two characters. -/
theorem isValid_start (h : s.Covers text part) : String.Pos.Raw.IsValid text ⟨s.start⟩ := by
  obtain ⟨before, after, rfl, rfl⟩ := h
  exact String.Pos.Raw.isValid_iff_exists_append.2
    ⟨before, part ++ after, String.append_assoc, rfl⟩

/-- A span ends between two characters. -/
theorem isValid_stop (h : s.Covers text part) : String.Pos.Raw.IsValid text ⟨s.stop⟩ := by
  obtain ⟨before, after, rfl, rfl⟩ := h
  exact String.Pos.Raw.isValid_iff_exists_append.2
    ⟨before ++ part, after, rfl, by simp [String.rawEndPos, String.utf8ByteSize_append]⟩

/-- The text at a span. -/
theorem extract_eq (h : s.Covers text part) :
    String.Pos.Raw.extract text ⟨s.start⟩ ⟨s.stop⟩ = part := by
  obtain ⟨before, after, rfl, rfl⟩ := h
  simpa [String.append_assoc] using
    String.extract_of_valid before.toList part.toList after.toList

end Covers

end Span

namespace Graph

variable {g : Graph} {i j root : NodeId} {p q : Position} {target : Option NodeId}

/-! ## Where an operand begins -/

/-- The opening parenthesis of an operand, where its place asks for one. -/
def opening (g : Graph) (j : NodeId) (minimum : Nat) : String :=
  if (g.node j).precedence < minimum then "(" else ""

/-- What is written before operand `n` of a list of pieces: the pieces before it and its own opening
parenthesis. -/
def leading (g : Graph) : List (Piece NodeId) → Nat → String
  | [], _ => ""
  | .text s :: rest, n => s ++ g.leading rest n
  | .operand j minimum :: _, 0 => g.opening j minimum
  | .operand j minimum :: rest, n + 1 =>
    g.pieceText .inline (.operand j minimum) ++ g.leading rest n

/-- What is written before an operand, given the pieces before it. -/
theorem leading_append (g : Graph) (done rest : List (Piece NodeId)) (j : NodeId) (minimum : Nat) :
    g.leading (done ++ .operand j minimum :: rest) (done.filterMap Piece.operand?).length =
      g.piecesText .inline done ++ g.opening j minimum := by
  induction done with
  | nil => simp [leading, piecesText]
  | cons piece done ih =>
    rw [piecesText_cons, String.append_assoc, ← ih]
    cases piece <;> rfl

/-- After an operand the text goes on with what is written before a later one. -/
theorem leading_of_lt {pieces : List (Piece NodeId)} {m n : Nat} (h : m < n)
    (hj : (pieces.filterMap Piece.operand?)[m]? = some j) :
    ∃ after, g.leading pieces n = g.leading pieces m ++ (g.unfold j).text .inline ++ after := by
  induction pieces generalizing m n with
  | nil => simp at hj
  | cons piece rest ih =>
    cases piece with
    | text s =>
      obtain ⟨after, hafter⟩ := ih h hj
      exact ⟨after, by rw [leading, leading, hafter]; simp [String.append_assoc]⟩
    | operand k minimum =>
      obtain ⟨n, rfl⟩ : ∃ n', n = n' + 1 := ⟨n - 1, by omega⟩
      cases m with
      | zero =>
        obtain rfl : k = j := Option.some.inj hj
        rw [leading, leading, opening, pieceText_operand]
        split
        · exact ⟨")" ++ g.leading rest n, by simp [parenthesized, String.append_assoc]⟩
        · exact ⟨g.leading rest n, by simp⟩
      | succ m =>
        obtain ⟨after, hafter⟩ := ih (Nat.lt_of_succ_lt_succ h) hj
        exact ⟨after, by rw [leading, leading, hafter]; simp [String.append_assoc]⟩

/-- Before an operand that is not there stands the whole text. -/
theorem leading_of_le {pieces : List (Piece NodeId)} {n : Nat}
    (h : (pieces.filterMap Piece.operand?).length ≤ n) :
    g.leading pieces n = g.piecesText .inline pieces := by
  induction pieces generalizing n with
  | nil => rfl
  | cons piece rest ih =>
    rw [piecesText_cons]
    cases piece with
    | text s => exact congrArg (s ++ ·) (ih h)
    | operand k minimum =>
      obtain ⟨n, rfl⟩ : ∃ n', n = n' + 1 := ⟨n - 1, by simp [Piece.operand?] at h; omega⟩
      simp only [List.filterMap_cons, Piece.operand?, List.length_cons] at h
      exact congrArg (g.pieceText .inline (.operand k minimum) ++ ·) (ih (Nat.le_of_succ_le_succ h))

/-- Where operand `n` of a node begins in its text. -/
def operandStart (g : Graph) (i : NodeId) (n : Nat) : Nat :=
  (g.leading ((g.node i).pieces .inline g.items) n).utf8ByteSize

/-! ## The span at a position -/

/-- Where the node at a position stands in the text of node `i`. -/
def spanAt (g : Graph) : NodeId → Position → Span
  | i, [] => ⟨0, ((g.unfold i).text .inline).utf8ByteSize⟩
  | i, n :: p =>
    match (g.shown i)[n]? with
    | some j => (g.spanAt j p).shift (g.operandStart i n)
    | none => ⟨0, 0⟩

theorem spanAt_cons {n : Nat} (h : (g.shown i)[n]? = some j) :
    g.spanAt i (n :: p) = (g.spanAt j p).shift (g.operandStart i n) := by
  rw [spanAt, h]

theorem getElem?_operands_pieces {n : Nat} (h : (g.shown i)[n]? = some j) :
    (((g.node i).pieces .inline g.items).filterMap Piece.operand?)[n]? = some j := by
  rw [Node.filterMap_operand?_pieces]
  exact h

/-- A shown operand stands between what is written before it and the rest of the text. -/
theorem exists_text_eq {n : Nat} (h : (g.shown i)[n]? = some j) :
    ∃ after, (g.unfold i).text .inline =
      g.leading ((g.node i).pieces .inline g.items) n ++ (g.unfold j).text .inline ++ after := by
  have hlt := (List.getElem?_eq_some_iff.1 (getElem?_operands_pieces h)).1
  obtain ⟨after, hafter⟩ := g.leading_of_lt hlt (getElem?_operands_pieces h)
  exact ⟨after, by rw [text_unfold, ← leading_of_le (Nat.le_refl _), hafter]⟩

/-- At the span of a position stands the text of the node there. -/
theorem covers_spanAt (h : Position.follow g.shown i p = some j) :
    (g.spanAt i p).Covers ((g.unfold i).text .inline) ((g.unfold j).text .inline) := by
  induction p generalizing i with
  | nil =>
    cases h
    exact .whole _
  | cons n p ih =>
    obtain ⟨k, hk, hp⟩ := Position.follow_cons_eq_some.1 h
    obtain ⟨after, hafter⟩ := exists_text_eq hk
    rw [spanAt_cons hk, hafter]
    exact (ih hp).inside

/-- Of two positions of a node, the one further to the left ends before the other begins. -/
theorem stop_spanAt_le (hp : Position.follow g.shown i p = some j)
    (hq : Position.follow g.shown i q = some j) (h : p < q) :
    (g.spanAt i p).stop ≤ (g.spanAt i q).start := by
  induction p generalizing i q with
  | nil =>
    cases hp
    cases q with
    | nil => exact absurd h (List.lt_irrefl _)
    | cons n q => exact absurd hq follow_cons_ne_self
  | cons m p ih =>
    obtain ⟨k, hk, hp⟩ := Position.follow_cons_eq_some.1 hp
    cases q with
    | nil => exact absurd h (List.not_lt_nil _)
    | cons n q =>
      obtain ⟨k', hk', hq⟩ := Position.follow_cons_eq_some.1 hq
      rw [spanAt_cons hk, spanAt_cons hk']
      rcases List.cons_lt_cons_iff.1 h with hlt | ⟨rfl, hlt⟩
      · -- the text of the first operand ends before the second begins
        obtain ⟨after, hafter⟩ := g.leading_of_lt hlt (getElem?_operands_pieces hk)
        have hstart : g.operandStart i m + ((g.unfold k).text .inline).utf8ByteSize ≤
            g.operandStart i n := by
          rw [operandStart, operandStart, hafter, String.utf8ByteSize_append,
            String.utf8ByteSize_append]
          exact Nat.le_add_right _ _
        have hstop := (covers_spanAt hp).stop_le
        simp only [Span.shift]
        omega
      · obtain rfl : k = k' := Option.some.inj (hk.symm.trans hk')
        exact Nat.add_le_add_right (ih hp hq hlt) _

end Graph

/-! ## What is written and noted -/

namespace Writer

variable {w : Writer} {s s' : String} {spans spans' : List Span}

/-- Adds a text at the end, with spans in it. -/
def extend (w : Writer) (s : String) (spans : List Span) : Writer :=
  ⟨w.text ++ s, w.spans ++ (spans.map fun span => span.shift w.text.utf8ByteSize).toArray⟩

theorem extend_empty (w : Writer) : w.extend "" [] = w := by simp [extend]

/-- A text is added piece by piece. -/
theorem extend_extend : (w.extend s spans).extend s' spans' =
    w.extend (s ++ s') (spans ++ spans'.map fun span => span.shift s.utf8ByteSize) := by
  simp [extend, String.append_assoc, Span.shift_shift, String.utf8ByteSize_append,
    Function.comp_def, Nat.add_comm]

/-- A text that is written may be noted as a whole. -/
theorem record_extend :
    (w.extend s []).record w.text.utf8ByteSize = w.extend s [⟨0, s.utf8ByteSize⟩] := by
  simp [record, extend, Span.shift, String.utf8ByteSize_append, Nat.add_comm]

theorem append_eq (w : Writer) (s : String) : w.append s = w.extend s [] := by
  simp [append, extend]

end Writer

namespace Graph

variable {g : Graph} {i j root : NodeId} {p q : Position} {target : Option NodeId}

/-- Where the target stands in the text of node `i`. -/
def spansIn (g : Graph) (target : Option NodeId) (i : NodeId) : List Span :=
  (g.shownAt target i).map (g.spanAt i)

/-- What is to be shown of writing node `i`: whatever was written before and is pending still, its text
is added, with the spans of the target. -/
def Writes (g : Graph) (target : Option NodeId) (i : NodeId) : Prop :=
  ∀ (w : Writer) (rest : List WriteStep),
    g.write .inline target (g.writeSteps .inline i w.text.utf8ByteSize ++ rest) w =
      g.write .inline target rest (w.extend ((g.unfold i).text .inline) (g.spansIn target i))

/-- Writing an operand puts it into parentheses if it binds weaker than it may. -/
theorem write_operand {minimum : Nat} (h : g.Writes target j) (w : Writer) (rest : List WriteStep) :
    g.write .inline target (.piece (.operand j minimum) :: rest) w =
      g.write .inline target rest (w.extend (g.pieceText .inline (.operand j minimum))
        ((g.spansIn target j).map fun span => span.shift (g.opening j minimum).utf8ByteSize)) := by
  rw [write, pieceText_operand, opening]
  split
  · rw [h, write, Writer.append_eq, Writer.append_eq, Writer.extend_extend, Writer.extend_extend]
    simp [parenthesized, String.append_assoc]
  · rw [h]
    simp [Span.shift]

/-- The spans of the target in an operand are those at the positions that begin with the operand. -/
theorem map_shift_spansIn {n : Nat} (h : (g.shown i)[n]? = some j) :
    ((g.spansIn target j).map fun span => span.shift (g.operandStart i n)) =
      ((g.shownAt target j).map (n :: ·)).map (g.spanAt i) := by
  rw [spansIn, List.map_map, List.map_map]
  exact List.map_congr_left fun p _ => (spanAt_cons h).symm

/-- The pieces of a node are written one after the other. -/
theorem write_pieces {done todo : List (Piece NodeId)}
    (hall : (g.node i).pieces .inline g.items = done ++ todo)
    (h : ∀ j ∈ todo.filterMap Piece.operand?, g.Writes target j) (w : Writer) (spans : List Span)
    (rest : List WriteStep) :
    g.write .inline target (todo.map .piece ++ rest)
        (w.extend (g.piecesText .inline done) spans) =
      g.write .inline target rest (w.extend ((g.unfold i).text .inline) (spans ++
        (((todo.filterMap Piece.operand?).zipIdx (done.filterMap Piece.operand?).length).flatMap
          fun operand => (g.shownAt target operand.1).map (operand.2 :: ·)).map (g.spanAt i))) := by
  induction todo generalizing done spans with
  | nil => simp [text_unfold, hall]
  | cons piece todo ih =>
    have hnext : (g.node i).pieces .inline g.items = (done ++ [piece]) ++ todo := by
      rw [hall, List.append_assoc]
      rfl
    have htext : g.piecesText .inline (done ++ [piece]) =
        g.piecesText .inline done ++ g.pieceText .inline piece := by
      simp [piecesText]
    cases piece with
    | text s =>
      rw [List.map_cons, List.cons_append, write, Writer.append_eq, Writer.extend_extend]
      have hrest := ih hnext h spans
      rw [htext] at hrest
      simpa [List.filterMap_cons, Piece.operand?] using hrest
    | operand j minimum =>
      have hj := h j (by simp [Piece.operand?])
      have hcount : (g.shown i)[(done.filterMap Piece.operand?).length]? = some j := by
        rw [shown, ← Node.filterMap_operand?_pieces g.items, hall]
        simp [Piece.operand?]
      have hstart : (g.piecesText .inline done).utf8ByteSize + (g.opening j minimum).utf8ByteSize =
          g.operandStart i (done.filterMap Piece.operand?).length := by
        rw [operandStart, hall, leading_append, String.utf8ByteSize_append]
      have hspans : ((g.spansIn target j).map fun span =>
            span.shift (g.opening j minimum).utf8ByteSize).map
              (fun span => span.shift (g.piecesText .inline done).utf8ByteSize) =
          ((g.shownAt target j).map ((done.filterMap Piece.operand?).length :: ·)).map
            (g.spanAt i) := by
        rw [← map_shift_spansIn hcount, List.map_map, ← hstart, Nat.add_comm]
        exact List.map_congr_left fun span _ => span.shift_shift _ _
      rw [List.map_cons, List.cons_append, write_operand hj, Writer.extend_extend, ← htext, hspans,
        ih hnext fun k hk => h k (by simpa [Piece.operand?] using Or.inr hk)]
      simp [Piece.operand?, List.zipIdx_cons, List.append_assoc]

/-- Every node is written out as its text, with the spans of the target. -/
theorem writes (g : Graph) (target : Option NodeId) : ∀ i, g.Writes target i := by
  refine g.induction fun i ih w rest => ?_
  have hpieces : ∀ j ∈ ((g.node i).pieces .inline g.items).filterMap Piece.operand?,
      g.Writes target j := by
    intro j hj
    rw [Node.filterMap_operand?_pieces] at hj
    exact ih j (g.shown_subset i hj)
  have hwrite := write_pieces (List.nil_append _).symm hpieces w []
    (.finish i w.text.utf8ByteSize :: rest)
  rw [writeSteps, List.append_assoc]
  simp only [piecesText, List.map_nil, String.join_nil, Writer.extend_empty, List.nil_append,
    List.filterMap_nil, List.length_nil, Node.filterMap_operand?_pieces] at hwrite
  rw [← shown] at hwrite
  rw [List.singleton_append, hwrite, write, spansIn, shownAt_eq]
  -- a target has no occurrence below itself, so its own span comes alone
  by_cases htarget : target = some i
  · have hnone := g.flatMap_shownAt_self i
    rw [← htarget] at hnone
    rw [if_pos htarget, if_pos htarget, hnone, List.map_nil, Writer.record_extend]
    rfl
  · rw [if_neg htarget, if_neg htarget]
    rfl

/-- A rendering is the text of the term, with the spans of the target. -/
theorem rendering_eq (g : Graph) (root : NodeId) (target : Option NodeId) :
    g.rendering .inline root target = ⟨(g.unfold root).text .inline, g.spansIn target root⟩ := by
  rw [rendering, write_operand (g.writes target root), write]
  simp [pieceText_operand, opening, Writer.extend, Span.shift]

/-- The text of an expression is the text of its term. -/
theorem text_eq_text_unfold (g : Graph) (root : NodeId) :
    g.text root = (g.unfold root).text .inline := by
  rw [text, rendering_eq]

theorem spansOf_eq (g : Graph) (root target : NodeId) :
    g.spansOf root target = g.spansIn (some target) root := by
  rw [spansOf, rendering_eq]

/-! ## The theorem -/

/-- A rendering of an expression shows exactly where the target stands in its text. -/
structure SpansExact (g : Graph) (root target : NodeId) (r : Rendering) : Prop where
  /-- The text is the one without a target. -/
  text_eq : r.text = g.text root
  /-- It follows the recursive rule for the unfolded expression. -/
  text_eq_unfold : r.text = (g.unfold root).text .inline
  /-- There is one span for each position at which the target is shown, from left to right. -/
  spans_eq : ∃ positions : List Position, positions.Pairwise (· < ·) ∧
    (∀ p, p ∈ positions ↔ Position.follow g.shown root p = some target) ∧
      r.spans = positions.map (g.spanAt root)
  /-- Each span ends before the next one begins. -/
  disjoint : r.spans.Pairwise fun s t => s.stop ≤ t.start
  /-- The spans begin and end between characters. -/
  boundaries : ∀ s ∈ r.spans,
    String.Pos.Raw.IsValid r.text ⟨s.start⟩ ∧ String.Pos.Raw.IsValid r.text ⟨s.stop⟩
  /-- At each of them stands the text of the target. -/
  extract_eq : ∀ s ∈ r.spans,
    String.Pos.Raw.extract r.text ⟨s.start⟩ ⟨s.stop⟩ = g.text target

theorem mem_shownAt_some_iff {target : NodeId} :
    p ∈ g.shownAt (some target) i ↔ Position.follow g.shown i p = some target := by
  simp [mem_shownAt_iff, eq_comm]

/-- At each span of a target stands its text. -/
theorem covers_of_mem_spansOf {target : NodeId} {s : Span} (h : s ∈ g.spansOf root target) :
    s.Covers (g.text root) (g.text target) := by
  rw [spansOf_eq] at h
  obtain ⟨p, hp, rfl⟩ := List.mem_map.1 h
  rw [text_eq_text_unfold, text_eq_text_unfold]
  exact covers_spanAt (mem_shownAt_some_iff.1 hp)

/-- The spans of a target are exact. -/
theorem spans_exact (g : Graph) (root target : NodeId) :
    SpansExact g root target (g.rendering .inline root (some target)) := by
  have htext : (g.rendering .inline root (some target)).text = g.text root := by
    rw [rendering_eq, text_eq_text_unfold]
  have hspans : (g.rendering .inline root (some target)).spans =
      (g.shownAt (some target) root).map (g.spanAt root) := by
    rw [rendering_eq, spansIn]
  refine ⟨htext, htext.trans (g.text_eq_text_unfold root),
    ⟨_, g.pairwise_shownAt _ root, fun p => mem_shownAt_some_iff, hspans⟩, ?_, fun s hs => ?_,
    fun s hs => ?_⟩
  · rw [hspans, List.pairwise_map]
    refine (g.pairwise_shownAt _ root).imp_of_mem fun hp hq hlt => ?_
    exact stop_spanAt_le (mem_shownAt_some_iff.1 hp) (mem_shownAt_some_iff.1 hq) hlt
  · rw [htext]
    exact ⟨(covers_of_mem_spansOf hs).isValid_start, (covers_of_mem_spansOf hs).isValid_stop⟩
  · rw [htext]
    exact (covers_of_mem_spansOf hs).extract_eq

end Graph

end FormStaging
