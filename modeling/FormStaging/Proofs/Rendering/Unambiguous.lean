import FormStaging.Proofs.Rendering.Spans
import FormStaging.Proofs.Staging.Outcome
import FormStaging.Proofs.Text.Brackets

/-!
# Expressions can be read off their text

Two expressions built from sums, products, divisions, powers, lists and variables over symbols and
integers have one text only if they are equal (`Graph.text_unambiguous`).

The text of such an expression exposes no sign that binds weaker than the expression itself, and an
operand exposes none that binds weaker than its place allows (`Arithmetic.tight`). So a text exposes the
sign of its top operation, every other sign it exposes binds at least as strongly, and as sums, products
and divisions lean to the left and powers to the right, the sign of the top operation is the last of its
strength, or the first. A text that exposes no sign shows by its first and last characters what it is
(`textKind`).
-/

set_option autoImplicit false

namespace FormStaging

/-! ## Arithmetic expressions -/

/-- The operations that are written with a sign between two operands. -/
inductive Operation where
  | sum | product | division | power
deriving DecidableEq, Repr

namespace Operation

/-- The layer of an operation. -/
def node {α : Type} : Operation → α → α → Node α
  | sum => .sum
  | product => .product
  | division => .division
  | power => .power

def sign : Operation → Char
  | sum => '+'
  | product => '*'
  | division => '/'
  | power => '^'

/-- What stands on both sides of the sign. -/
def pad : Operation → List Char
  | power => []
  | _ => [' ']

def precedence : Operation → Nat
  | sum => 1
  | product | division => 2
  | power => 3

/-- The least precedence of a left operand without parentheses. -/
def leftMinimum : Operation → Nat
  | sum => 1
  | product | division => 2
  | power => 4

/-- The least precedence of a right operand without parentheses. -/
def rightMinimum : Operation → Nat
  | sum => 2
  | product | division | power => 3

theorem precedence_le_leftMinimum (o : Operation) : o.precedence ≤ o.leftMinimum := by
  cases o <;> decide

theorem precedence_le_rightMinimum (o : Operation) : o.precedence ≤ o.rightMinimum := by
  cases o <;> decide

theorem leftMinimum_le (o : Operation) : o.leftMinimum ≤ 4 := by cases o <;> decide

theorem rightMinimum_le (o : Operation) : o.rightMinimum ≤ 4 := by cases o <;> decide

/-- An operation leans to the left or to the right. -/
theorem leans (o : Operation) :
    o.precedence < o.rightMinimum ∨ o.precedence < o.leftMinimum := by
  cases o <;> decide

theorem sign_injective {o o' : Operation} (h : o.sign = o'.sign) : o = o' := by
  cases o <;> cases o' <;> first | rfl | exact absurd h (by decide)

/-- Operations of one strength are laid out alike. -/
theorem layout_eq {o o' : Operation} (h : o.precedence = o'.precedence) :
    o.pad = o'.pad ∧ o.leftMinimum = o'.leftMinimum ∧ o.rightMinimum = o'.rightMinimum := by
  cases o <;> cases o' <;> first | exact ⟨rfl, rfl, rfl⟩ | exact absurd h (by decide)

@[simp] theorem precedence_node {α : Type} (o : Operation) (a b : α) :
    (o.node a b).precedence = o.precedence := by
  cases o <;> rfl

end Operation

/-- Expressions built from operations, lists and variables over symbols and integers. The name of a
symbol is a nonempty word of letters. -/
inductive Term.Arithmetic : Term → Prop
  | operation (o : Operation) {a b : Term} :
    Arithmetic a → Arithmetic b → Arithmetic (.mk (o.node a b))
  | list {parts : List Term} : (∀ t ∈ parts, Arithmetic t) → Arithmetic (.mk (.listTensor parts))
  | labelled {content : Term} (label : Label) :
    Arithmetic content → Arithmetic (.mk (.labelled content label))
  | symbol {name : String} :
    name ≠ "" → (∀ c ∈ name.toList, c.isAlpha = true) → Arithmetic (.mk (.symbol name))
  | int (value : Int) : Arithmetic (.mk (.int value))

/-! ## The characters of a text -/

namespace Term

/-- The characters of the text of a term. -/
def chars (t : Term) : List Char := (t.text .inline).toList

/-- The characters of a term that is an operand. -/
def operandChars (t : Term) (minimum : Nat) : List Char :=
  if t.node.precedence < minimum then '(' :: t.chars ++ [')'] else t.chars

theorem operandChars_zero (t : Term) : t.operandChars 0 = t.chars := rfl

theorem toList_pieceText_operand (t : Term) (minimum : Nat) :
    (pieceText .inline (.operand t minimum)).toList = t.operandChars minimum := by
  rw [pieceText, operandChars]
  split <;> simp [parenthesized, chars]

/-- What stands before the sign of an operation. -/
def leftPart (o : Operation) (a : Term) : List Char := a.operandChars o.leftMinimum ++ o.pad

/-- What stands after the sign of an operation. -/
def rightPart (o : Operation) (b : Term) : List Char := o.pad ++ b.operandChars o.rightMinimum

theorem chars_operation (o : Operation) (a b : Term) :
    (mk (o.node a b)).chars = leftPart o a ++ o.sign :: rightPart o b := by
  rw [chars, text_mk, leftPart, rightPart]
  cases o <;>
    simp [Operation.node, Node.pieces, Operation.pad, Operation.sign, Operation.leftMinimum,
      Operation.rightMinimum, toList_pieceText_operand]

theorem chars_commaSeparated : ∀ parts : List Term,
    (String.join ((Node.commaSeparated parts).map (pieceText .inline))).toList =
      [',', ' '].intercalate (parts.map chars)
  | [] => rfl
  | [t] => by simp [Node.commaSeparated, toList_pieceText_operand, operandChars_zero]
  | t :: u :: rest => by
    have h := chars_commaSeparated (u :: rest)
    simp [Node.commaSeparated, toList_pieceText_operand, operandChars_zero, h,
      List.intercalate_cons_cons]

theorem chars_list (parts : List Term) :
    (mk (.listTensor parts)).chars = '[' :: [',', ' '].intercalate (parts.map chars) ++ [']'] := by
  rw [chars, text_mk, Node.pieces]
  simp [← chars_commaSeparated, String.join_append]

theorem chars_labelled (content : Term) (label : Label) :
    (mk (.labelled content label)).chars = label.text.toList ++ ('(' :: content.chars ++ [')']) := by
  rw [chars, text_mk, Node.pieces]
  simp [toList_pieceText_operand, operandChars_zero]

theorem chars_symbol (name : String) : (mk (.symbol name)).chars = name.toList := by
  simp [chars, text_mk, Node.pieces]

theorem chars_int (value : Int) : (mk (.int value)).chars = (toString value).toList := by
  simp [chars, text_mk, Node.pieces]

end Term

/-! ## Words -/

/-- The characters that names, labels and integers are written with. -/
def isWord (c : Char) : Bool := c.isAlphanum || c == '-'

/-- How strongly a sign holds what stands on its two sides together; no other character divides. -/
def signPrecedence : Char → Nat
  | ',' => 0
  | '+' => 1
  | '*' | '/' => 2
  | '^' => 3
  | _ => 4

/-- Whether a character is a sign that binds at most as strongly as a given strength. -/
def divides (strength : Nat) (c : Char) : Bool := signPrecedence c ≤ strength

@[simp] theorem signPrecedence_sign (o : Operation) : signPrecedence o.sign = o.precedence := by
  cases o <;> rfl

@[simp] theorem isBracket_sign (o : Operation) : isBracket o.sign = false := by cases o <;> rfl

section Words

variable {c : Char}

theorem isBracket_of_isWord (h : isWord c = true) : isBracket c = false := by
  rw [← Bool.not_eq_true]
  intro hc
  simp only [isBracket, isOpening, isClosing, Bool.or_eq_true, decide_eq_true_eq] at hc
  rcases hc with (rfl | rfl) | (rfl | rfl) <;> exact absurd h (by decide)

theorem signPrecedence_of_isWord (h : isWord c = true) : signPrecedence c = 4 := by
  unfold signPrecedence
  split <;> first | rfl | exact absurd h (by decide)

theorem isWord_of_isAlpha (h : c.isAlpha = true) : isWord c = true := by
  simp [isWord, Char.isAlphanum, h]

theorem isWord_of_isDigit (h : c.isDigit = true) : isWord c = true := by
  simp [isWord, Char.isAlphanum, h]

theorem isDigit_of_mem_repr {n : Nat} (h : c ∈ n.repr.toList) : c.isDigit = true := by
  rw [Nat.toList_repr] at h
  exact Nat.isDigit_of_mem_toDigits (by decide) (by decide) h

theorem isAlpha_of_isDigit (h : c.isDigit = true) : c.isAlpha = false := by
  rw [Char.isDigit_iff_toNat] at h
  simp only [Char.isAlpha, Char.isUpper, Char.isLower, UInt32.le_iff_toNat_le, Bool.or_eq_false_iff,
    Bool.and_eq_false_iff, decide_eq_false_iff_not, Char.toNat_val, Char.reduceToNat] at h ⊢
  omega

/-- An integer is written with digits, after a sign if it is negative. -/
theorem isDigit_of_mem_toString {value : Int} (h : c ∈ (toString value).toList) :
    c = '-' ∨ c.isDigit = true := by
  rw [Int.toString_eq_repr, Int.repr_eq_if] at h
  split at h
  · exact .inr (isDigit_of_mem_repr h)
  · rw [String.toList_append] at h
    exact (List.mem_append.1 h).imp (by simp) isDigit_of_mem_repr

theorem isWord_of_mem_toString {value : Int} (h : c ∈ (toString value).toList) :
    isWord c = true := by
  rcases isDigit_of_mem_toString h with rfl | h
  · rfl
  · exact isWord_of_isDigit h

theorem toString_ne_empty (value : Int) : toString value ≠ "" := by
  rw [Int.toString_eq_repr, Int.repr_eq_if]
  split <;> simp

theorem isWord_of_mem_label {label : Label} (h : c ∈ label.text.toList) : isWord c = true := by
  rw [Label.text, String.toList_append] at h
  rcases List.mem_append.1 h with h | h
  · obtain rfl | rfl | rfl : c = 'v' ∨ c = 'a' ∨ c = 'r' := by simpa using h
    all_goals rfl
  · exact isWord_of_isDigit (isDigit_of_mem_repr h)

end Words

/-! ## What a text exposes -/

/-- A text that holds together with a given strength: it may stand in a larger text without dividing
it, and exposes no sign that binds weaker. -/
structure Tight (strength : Nat) (l : List Char) : Prop where
  closed : Closed l
  ne_nil : l ≠ []
  le_sign : ∀ c ∈ exposed 0 l, strength ≤ signPrecedence c

namespace Tight

variable {strength weaker : Nat} {l x y : List Char}

/-- No sign that binds weaker is exposed. -/
theorem divides_eq_false (h : Tight strength l) (hlt : weaker < strength) :
    ∀ c ∈ exposed 0 l, divides weaker c = false := by
  intro c hc
  have hle := h.le_sign c hc
  simp only [divides, decide_eq_false_iff_not]
  omega

theorem mono (h : Tight strength l) (hle : weaker ≤ strength) : Tight weaker l :=
  ⟨h.closed, h.ne_nil, fun c hc => hle.trans (h.le_sign c hc)⟩

theorem of_words (hl : l ≠ []) (h : ∀ c ∈ l, isWord c = true) : Tight 4 l := by
  have hclosed : ∀ c ∈ l, isBracket c = false := fun c hc => isBracket_of_isWord (h c hc)
  refine ⟨Closed.of_forall hclosed, hl, fun c hc => ?_⟩
  rw [exposed_eq_self hclosed] at hc
  exact (signPrecedence_of_isWord (h c hc)).ge

theorem append (hx : Tight strength x) (hy : Tight strength y) : Tight strength (x ++ y) := by
  refine ⟨hx.closed.append hy.closed, by simp [hx.ne_nil], fun c hc => ?_⟩
  rw [hx.closed.exposed_append] at hc
  exact (List.mem_append.1 hc).elim (hx.le_sign c) (hy.le_sign c)

/-- Brackets hold anything together. -/
theorem brackets {s s' : Char} (h : Closed l) (hs : isOpening s = true) (hs' : isClosing s' = true) :
    Tight strength (s :: l ++ [s']) := by
  refine ⟨h.brackets hs hs', by simp, fun c hc => ?_⟩
  rw [h.exposed_brackets_eq_nil hs hs'] at hc
  cases hc

/-- The two parts of an operation and its sign. -/
theorem operation {o : Operation} (hx : Tight o.precedence x) (hy : Tight o.precedence y) :
    Tight o.precedence (x ++ o.sign :: y) := by
  have hsign : Tight o.precedence [o.sign] := by
    refine ⟨Closed.singleton (isBracket_sign o), by simp, fun c hc => ?_⟩
    rw [exposed_cons (isBracket_sign o)] at hc
    obtain rfl := List.mem_singleton.1 hc
    simp
  exact hx.append (hsign.append hy)

theorem space (hle : strength ≤ 4) : Tight strength [' '] := by
  refine ⟨Closed.singleton rfl, by simp, fun c hc => ?_⟩
  obtain rfl := List.mem_singleton.1 hc
  exact hle

/-- The space around a sign belongs to the operands as well. -/
theorem pad (h : Tight strength x) (hle : strength ≤ 4) (o : Operation) :
    Tight strength (o.pad ++ x) ∧ Tight strength (x ++ o.pad) := by
  cases o with
  | power => simpa [Operation.pad] using h
  | _ => exact ⟨(space hle).append h, h.append (space hle)⟩

theorem separable (h : Tight strength l) (hpos : 0 < strength) : Separable l := by
  refine ⟨h.closed, h.ne_nil, fun c hc => ?_⟩
  have hle := h.le_sign c hc
  rw [beq_eq_false_iff_ne]
  rintro rfl
  exact absurd (hpos.trans_le hle) (by decide)

end Tight

namespace Term

variable {t t' : Term} {minimum : Nat}

theorem tight_operandChars (h : Tight t.node.precedence t.chars) (minimum : Nat) :
    Tight minimum (t.operandChars minimum) := by
  rw [operandChars]
  split
  · exact Tight.brackets h.closed rfl rfl
  · exact h.mono (by omega)

theorem tight_leftPart (o : Operation) (h : Tight t.node.precedence t.chars) :
    Tight o.leftMinimum (leftPart o t) :=
  ((tight_operandChars h _).pad o.leftMinimum_le o).2

theorem tight_rightPart (o : Operation) (h : Tight t.node.precedence t.chars) :
    Tight o.rightMinimum (rightPart o t) :=
  ((tight_operandChars h _).pad o.rightMinimum_le o).1

theorem tight_int (value : Int) : Tight 4 (mk (.int value)).chars := by
  rw [chars_int]
  exact Tight.of_words (by simpa using toString_ne_empty value) fun c hc => isWord_of_mem_toString hc

/-- The text of an arithmetic expression exposes no sign that binds weaker than the expression. -/
theorem Arithmetic.tight (h : t.Arithmetic) : Tight t.node.precedence t.chars := by
  induction h with
  | operation o _ _ ih ih' =>
    rw [chars_operation, node, Operation.precedence_node]
    exact ((tight_leftPart o ih).mono o.precedence_le_leftMinimum).operation
      ((tight_rightPart o ih').mono o.precedence_le_rightMinimum)
  | list _ ih =>
    rw [chars_list]
    refine Tight.brackets (closed_intercalate fun l hl => ?_) rfl rfl
    obtain ⟨t, ht, rfl⟩ := List.mem_map.1 hl
    exact (ih t ht).closed
  | labelled label _ ih =>
    rw [chars_labelled]
    exact (Tight.of_words (by simp [Label.text]) fun c hc => isWord_of_mem_label hc).append
      (Tight.brackets ih.closed rfl rfl)
  | symbol hne halpha =>
    rw [chars_symbol]
    exact Tight.of_words (by simpa using hne) fun c hc => isWord_of_isAlpha (halpha c hc)
  | int value =>
    refine (tight_int value).mono ?_
    rw [node, Node.precedence]
    split <;> decide

theorem Arithmetic.separable (h : t.Arithmetic) : Separable t.chars := by
  refine h.tight.separable ?_
  cases h with
  | operation o _ _ => rw [node, Operation.precedence_node]; cases o <;> decide
  | int value => rw [node, Node.precedence]; split <;> decide
  | _ => exact Nat.succ_pos 3

/-- The sign of an operation is exposed. -/
theorem sign_mem_exposed (o : Operation) {a : Term} (ha : a.Arithmetic) (b : Term) :
    o.sign ∈ exposed 0 (mk (o.node a b)).chars := by
  rw [chars_operation, (tight_leftPart o ha.tight).closed.exposed_append,
    exposed_cons (isBracket_sign o)]
  simp

end Term

/-! ## What an expression is -/

/-- What a text shows an expression to be. -/
inductive TextKind where
  | operation | bracketed | list | labelled | symbol | int
deriving DecidableEq, Repr

/-- What a text is read as. -/
def textKind (l : List Char) : TextKind :=
  if (exposed 0 l).any (divides 3) then .operation
  else if l.head? = some '(' then .bracketed
  else if l.head? = some '[' then .list
  else if l.getLast? = some ')' then .labelled
  else if l.head?.any Char.isAlpha then .symbol
  else .int

/-- What an arithmetic expression is. -/
def Term.kindInText (t : Term) : TextKind :=
  match t.node with
  | .symbol _ => .symbol
  | .int _ => .int
  | .listTensor _ => .list
  | .labelled _ _ => .labelled
  | _ => .operation

section Kinds

variable {l : List Char}

theorem textKind_of_tight (h : Tight 4 l) : textKind l =
    if l.head? = some '(' then .bracketed
    else if l.head? = some '[' then .list
    else if l.getLast? = some ')' then .labelled
    else if l.head?.any Char.isAlpha then .symbol
    else .int := by
  have hno : (exposed 0 l).any (divides 3) = false :=
    List.any_eq_false.2 fun c hc => by simp [h.divides_eq_false (Nat.lt_succ_self 3) c hc]
  rw [textKind, hno, if_neg (by decide)]

theorem textKind_brackets (h : Closed l) : textKind ('(' :: l ++ [')']) = .bracketed := by
  rw [textKind_of_tight (Tight.brackets h rfl rfl)]
  simp

theorem textKind_of_words (hl : l ≠ []) (h : ∀ c ∈ l, isWord c = true) :
    textKind l = if l.head?.any Char.isAlpha then .symbol else .int := by
  have hhead : ∀ s, isWord s = false → l.head? ≠ some s := by
    intro s hs hhead
    rw [h s (List.mem_of_head? hhead)] at hs
    cases hs
  have hlast : l.getLast? ≠ some ')' := by
    intro hlast
    exact absurd (h ')' (List.mem_of_getLast? hlast)) (by decide)
  rw [textKind_of_tight (Tight.of_words hl h), if_neg (hhead '(' rfl), if_neg (hhead '[' rfl),
    if_neg hlast]

end Kinds

namespace Term

/-- The text of an arithmetic expression shows what the expression is. -/
theorem Arithmetic.textKind_chars {t : Term} (h : t.Arithmetic) : textKind t.chars = t.kindInText := by
  cases h with
  | @operation o a b ha hb =>
    have hsome : (exposed 0 (mk (o.node a b)).chars).any (divides 3) = true :=
      List.any_eq_true.2 ⟨o.sign, sign_mem_exposed o ha b, by cases o <;> decide⟩
    rw [textKind, if_pos hsome]
    cases o <;> rfl
  | list hparts =>
    rw [textKind_of_tight (Arithmetic.list hparts).tight, chars_list]
    simp [kindInText, node]
  | labelled label hcontent =>
    rw [textKind_of_tight (Arithmetic.labelled label hcontent).tight, chars_labelled, Label.text]
    simp [kindInText, node, List.getLast?_cons, List.getLast?_append]
  | symbol hne halpha =>
    have hwords := List.isSome_head?.2 (mt String.toList_eq_nil_iff.1 hne)
    obtain ⟨c, hc⟩ := Option.isSome_iff_exists.1 hwords
    rw [chars_symbol, textKind_of_words (by simpa using hne) fun c hc =>
      isWord_of_isAlpha (halpha c hc), hc]
    simp [halpha c (List.mem_of_head? hc), kindInText, node]
  | int value =>
    rw [chars_int, textKind_of_words (by simpa using toString_ne_empty value)
      fun c hc => isWord_of_mem_toString hc]
    cases hc : (toString value).toList.head? with
    | none => rfl
    | some c =>
      rcases isDigit_of_mem_toString (List.mem_of_head? hc) with rfl | hdigit
      · rfl
      · simp [isAlpha_of_isDigit hdigit, kindInText, node]

/-! ## Reading off -/

variable {t t' a a' b b' : Term} {minimum : Nat}

/-- Whether an operand is in parentheses can be read off. -/
theorem chars_eq_of_operandChars_eq (h : t.Arithmetic) (h' : t'.Arithmetic)
    (heq : t.operandChars minimum = t'.operandChars minimum) : t.chars = t'.chars := by
  have hne : ∀ {t : Term}, t.kindInText ≠ .bracketed := by
    intro t
    rw [kindInText]
    split <;> exact nofun
  rw [operandChars, operandChars] at heq
  split at heq <;> split at heq
  · exact List.append_cancel_right (List.cons.inj heq).2
  · have hkind := h'.textKind_chars
    rw [← heq, textKind_brackets h.tight.closed] at hkind
    exact absurd hkind.symm hne
  · have hkind := h.textKind_chars
    rw [heq, textKind_brackets h'.tight.closed] at hkind
    exact absurd hkind.symm hne
  · exact heq

/-- The top operation and its operands can be read off. -/
theorem operation_of_chars_eq {o o' : Operation} (ha : a.Arithmetic) (hb : b.Arithmetic)
    (ha' : a'.Arithmetic) (hb' : b'.Arithmetic)
    (heq : (mk (o.node a b)).chars = (mk (o'.node a' b')).chars) :
    o = o' ∧ a.chars = a'.chars ∧ b.chars = b'.chars := by
  -- each operation exposes its sign to the other, so they bind equally strongly
  have hle : o'.precedence ≤ o.precedence := by
    have hsign := sign_mem_exposed o ha b
    rw [heq] at hsign
    simpa [node] using (Arithmetic.operation o' ha' hb').tight.le_sign o.sign hsign
  have hge : o.precedence ≤ o'.precedence := by
    have hsign := sign_mem_exposed o' ha' b'
    rw [← heq] at hsign
    simpa [node] using (Arithmetic.operation o ha hb).tight.le_sign o'.sign hsign
  -- so their operands are laid out alike
  obtain ⟨hpad, hleft, hright⟩ := Operation.layout_eq (Nat.le_antisymm hge hle)
  have hleftPart : leftPart o' a' = leftPart o a' := by rw [leftPart, leftPart, hpad, hleft]
  have hrightPart : rightPart o' b' = rightPart o b' := by rw [rightPart, rightPart, hpad, hright]
  rw [chars_operation, chars_operation, hleftPart, hrightPart] at heq
  have hx := tight_leftPart o ha.tight
  have hx' := tight_leftPart o ha'.tight
  have hy := tight_rightPart o hb.tight
  have hy' := tight_rightPart o hb'.tight
  have hsign : divides o.precedence o.sign = true := by simp [divides]
  have hsign' : divides o.precedence o'.sign = true := by simpa [divides] using hle
  -- the sign is the last of its strength, or the first
  have hparts : leftPart o a = leftPart o a' ∧ o.sign = o'.sign ∧ rightPart o b = rightPart o b' := by
    rcases o.leans with hlt | hlt
    · exact Closed.split_last hx.closed hx'.closed (isBracket_sign o) (isBracket_sign o') hsign hsign'
        (hy.divides_eq_false hlt) (hy'.divides_eq_false hlt) heq
    · exact Closed.split_first hx.closed hx'.closed (isBracket_sign o) (isBracket_sign o') hsign hsign'
        (hx.divides_eq_false hlt) (hx'.divides_eq_false hlt) heq
  exact ⟨Operation.sign_injective hparts.2.1,
    chars_eq_of_operandChars_eq ha ha' (List.append_cancel_right hparts.1),
    chars_eq_of_operandChars_eq hb hb' (List.append_cancel_left hparts.2.2)⟩

/-- The label and the content of a variable can be read off. -/
theorem labelled_of_chars_eq {label label' : Label} (ha : a.Arithmetic) (ha' : a'.Arithmetic)
    (heq : (mk (.labelled a label)).chars = (mk (.labelled a' label')).chars) :
    label = label' ∧ a.chars = a'.chars := by
  rw [chars_labelled, chars_labelled] at heq
  have hwords : ∀ label : Label, ∀ c ∈ label.text.toList, isBracket c = false :=
    fun _ _ hc => isBracket_of_isWord (isWord_of_mem_label hc)
  -- the content is in brackets, so just the label is exposed
  have htext := congrArg (exposed 0) heq
  rw [(Closed.of_forall (hwords label)).exposed_append,
    (Closed.of_forall (hwords label')).exposed_append, ha.tight.closed.exposed_brackets_eq_nil rfl rfl,
    ha'.tight.closed.exposed_brackets_eq_nil rfl rfl, List.append_nil, List.append_nil,
    exposed_eq_self (hwords label), exposed_eq_self (hwords label')] at htext
  rw [htext] at heq
  refine ⟨?_, List.append_cancel_right (List.cons.inj (List.append_cancel_left heq)).2⟩
  rw [String.toList_inj, Label.text, Label.text, String.append_right_inj] at htext
  exact congrArg Label.mk (Fin.ext (Nat.repr_inj.1 htext))

/-- The entries of a list can be read off. -/
theorem list_of_chars_eq {parts parts' : List Term} (h : ∀ t ∈ parts, t.Arithmetic)
    (h' : ∀ t ∈ parts', t.Arithmetic)
    (heq : (mk (.listTensor parts)).chars = (mk (.listTensor parts')).chars) :
    parts.map chars = parts'.map chars := by
  rw [chars_list, chars_list] at heq
  have hseparable : ∀ {parts : List Term}, (∀ t ∈ parts, t.Arithmetic) →
      ∀ l ∈ parts.map chars, Separable l := by
    intro parts h l hl
    obtain ⟨t, ht, rfl⟩ := List.mem_map.1 hl
    exact (h t ht).separable
  exact intercalate_injective (hseparable h) (hseparable h')
    (List.append_cancel_right (List.cons.inj heq).2)

theorem Arithmetic.kindInText_eq (h : t.Arithmetic) (h' : t'.Arithmetic) (heq : t.chars = t'.chars) :
    t.kindInText = t'.kindInText := by
  rw [← h.textKind_chars, ← h'.textKind_chars, heq]

/-- An arithmetic expression can be read off its text. -/
theorem Arithmetic.eq_of_chars_eq (h : t.Arithmetic) (h' : t'.Arithmetic)
    (heq : t.chars = t'.chars) : t = t' := by
  induction h generalizing t' with
  | operation o ha hb iha ihb =>
    have hkind := kindInText_eq (.operation o ha hb) h' heq
    cases h' with
    | operation o' ha' hb' =>
      obtain ⟨rfl, hleft, hright⟩ := operation_of_chars_eq ha hb ha' hb' heq
      rw [iha ha' hleft, ihb hb' hright]
    | _ => cases o <;> cases hkind
  | @list parts hparts ih =>
    have hkind := kindInText_eq (.list hparts) h' heq
    cases h' with
    | @list parts' hparts' =>
      have hchars := list_of_chars_eq hparts hparts' heq
      have hlength : parts.length = parts'.length := by simpa using congrArg List.length hchars
      refine congrArg (fun parts => mk (.listTensor parts)) (List.ext_getElem hlength ?_)
      intro n hn hn'
      refine ih _ (List.getElem_mem hn) (hparts' _ (List.getElem_mem hn')) ?_
      simpa [hn, hn'] using congrArg (·[n]?) hchars
    | operation o' => cases o' <;> cases hkind
    | _ => cases hkind
  | labelled label ha ih =>
    have hkind := kindInText_eq (.labelled label ha) h' heq
    cases h' with
    | labelled label' ha' =>
      obtain ⟨rfl, hcontent⟩ := labelled_of_chars_eq ha ha' heq
      rw [ih ha' hcontent]
    | operation o' => cases o' <;> cases hkind
    | _ => cases hkind
  | symbol hne halpha =>
    have hkind := kindInText_eq (.symbol hne halpha) h' heq
    cases h' with
    | symbol =>
      rw [chars_symbol, chars_symbol, String.toList_inj] at heq
      rw [heq]
    | operation o' => cases o' <;> cases hkind
    | _ => cases hkind
  | int value =>
    have hkind := kindInText_eq (.int value) h' heq
    cases h' with
    | int value' =>
      rw [chars_int, chars_int, String.toList_inj] at heq
      rw [Int.repr_injective heq]
    | operation o' => cases o' <;> cases hkind
    | _ => cases hkind

end Term

namespace Graph

/-- The written form of arithmetic expressions is unambiguous. Two expressions that are built from
sums, products, divisions, powers, lists and variables over integers and symbols named by letters have
one text only if they are structurally equal. -/
theorem text_unambiguous {g g' : Graph} {i j : NodeId} (h : (g.unfold i).Arithmetic)
    (h' : (g'.unfold j).Arithmetic) (htext : g.text i = g'.text j) : g.unfold i = g'.unfold j := by
  rw [text_eq_text_unfold, text_eq_text_unfold] at htext
  exact h.eq_of_chars_eq h' (congrArg String.toList htext)

/-- The list of a power of a sum and a variable over a quotient, with the leaves shared. -/
def sharedLeaves : Graph :=
  .ofNodes [.symbol "a", .int (-1), .sum 0 1, .power 2 1, .division 0 0, .labelled 4 ⟨3⟩,
    .listTensor [3, 5]]

/-- The same list with every leaf written out. -/
def copiedLeaves : Graph :=
  .ofNodes [.symbol "a", .int (-1), .sum 0 1, .int (-1), .power 2 3, .symbol "a", .symbol "a",
    .division 5 6, .labelled 7 ⟨3⟩, .listTensor [4, 8]]

/-- The texts are computed before anything is known of the terms. -/
theorem text_unambiguous_copiedLeaves :
    (sharedLeaves.unfold 6).Arithmetic ∧ (copiedLeaves.unfold 9).Arithmetic ∧
      sharedLeaves.text 6 = "[(a + -1)^(-1), var3(a / a)]" ∧
      copiedLeaves.text 9 = "[(a + -1)^(-1), var3(a / a)]" ∧
      sharedLeaves.unfold 6 = copiedLeaves.unfold 9 := by
  have ha : (Term.mk (.symbol "a")).Arithmetic := .symbol (by decide) (by simp)
  have hone : (Term.mk (.int (-1))).Arithmetic := .int (-1)
  have hpower := Term.Arithmetic.operation .power (.operation .sum ha hone) hone
  have hvariable := Term.Arithmetic.labelled ⟨3⟩ (.operation .division ha ha)
  have hall : (Term.mk (.listTensor [_, _])).Arithmetic := .list (by simpa using ⟨hpower, hvariable⟩)
  have h : (sharedLeaves.unfold 6).Arithmetic := by cbv; exact hall
  have h' : (copiedLeaves.unfold 9).Arithmetic := by cbv; exact hall
  have htext : sharedLeaves.text 6 = "[(a + -1)^(-1), var3(a / a)]" := by cbv
  have htext' : copiedLeaves.text 9 = "[(a + -1)^(-1), var3(a / a)]" := by cbv
  exact ⟨h, h', htext, htext', text_unambiguous h h' (htext.trans htext'.symm)⟩

end Graph

end FormStaging
