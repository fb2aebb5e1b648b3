import Formula.Proofs.Building
import Formula.Proofs.Lineups

/-!
# What a fault is about

A formula that is put into postfix order and built into a tree can go wrong in few ways, and
`Fault.subject?` says in which. A literal that has no value is a fault about literals
(`Token.about_literalValue`). An element that has a place in postfix order is taken in, or the
fault is about an operand, a literal, a constant, the target of an assignment or a function
(`Node.about_build`).

Each fault with a subject has a message of its own, which is known by its end. None of them says
that something is not a literal (`Fault.About.message_ne`).
-/

namespace Formula

/-- What a fault of postfix order or of building can be about. -/
inductive Subject where
  /-- A parenthesis without its partner. -/
  | balance
  /-- A comma outside of a list of arguments, or without an argument in front of it or behind. -/
  | comma
  /-- Nothing to build from. -/
  | emptiness
  /-- An operand or an argument that is missing. -/
  | operand
  /-- A literal without a value. -/
  | literal
  /-- A constant without a value. -/
  | constant
  /-- An assignment to something else than a variable. -/
  | target
  /-- A call of no known function. -/
  | function
  deriving DecidableEq

/-- What the cause is about. -/
def SyntaxCause.subject? : SyntaxCause → Option Subject
  | unclosedParenthesis | unopenedParenthesis => some .balance
  | strayComma | emptyArgument => some .comma
  | emptyExpression => some .emptiness
  | missingOperand | missingArguments _ => some .operand
  | unknownEscape _ | danglingBackslash => some .literal
  | malformedInteger | malformedFloat | malformedDecimal _ => some .literal
  | targetNotVariable | targetConstant _ => some .target
  | _ => none

/-- What the cause is about. -/
def OverflowCause.subject? : OverflowCause → Option Subject
  | integer _ | float _ | decimal => some .literal
  | reported _ => none

/-- What the cause is about. -/
def KindCause.subject? : KindCause → Option Subject
  | unknownFunction _ | noOverload _ _ => some .function
  | _ => none

/-- What the cause is about. -/
def ConfigCause.subject? : ConfigCause → Option Subject
  | unboundConstant _ => some .constant
  | _ => none

namespace Fault

/-- What the fault is about, if it can come up in postfix order or in building. -/
def subject? : Fault → Option Subject
  | syntactic _ cause => cause.subject?
  | overflow _ cause => cause.subject?
  | kind cause => cause.subject?
  | runtime _ => none
  | config cause => cause.subject?

/-- The fault is about one of the subjects. -/
def About (subjects : List Subject) (e : Fault) : Prop := ∃ s ∈ subjects, e.subject? = some s

namespace About

variable {ss ss' : List Subject} {s : Subject} {e : Fault}

theorem of (h : e.subject? = some s) (hs : s ∈ ss) : e.About ss := ⟨s, hs, h⟩

theorem mono (h : e.About ss) (hss : ss ⊆ ss') : e.About ss' := by
  obtain ⟨s, hs, h⟩ := h
  exact ⟨s, hss hs, h⟩

theorem ne_of_subject? {f : Fault} (h : e.About ss) (hf : f.subject? = none) : e ≠ f := by
  rintro rfl
  obtain ⟨s, -, h⟩ := h
  simp [hf] at h

end About

end Fault

/-! ## Messages -/

/-- No text that ends with `s` ends with `t`. -/
def EndsApart (s t : String) : Prop := ∀ u v : String, u ++ s ≠ v ++ t

namespace EndsApart

variable {s t : String}

/-- Neither of two texts ends with the other, so nothing ends with both. -/
theorem of_not_suffix (h : ¬s.toList <:+ t.toList ∧ ¬t.toList <:+ s.toList) :
    EndsApart s t := by
  intro u v heq
  have hlist : u.toList ++ s.toList = v.toList ++ t.toList := by
    simpa using congrArg String.toList heq
  have hs : s.toList <:+ v.toList ++ t.toList := ⟨u.toList, hlist⟩
  rcases List.suffix_or_suffix_of_suffix hs (List.suffix_append _ _) with hst | hts
  · exact h.1 hst
  · exact h.2 hts

theorem append (h : EndsApart s t) (w : String) : EndsApart (w ++ s) t := by
  intro u v
  rw [← String.append_assoc]
  exact h (u ++ w) v

end EndsApart

theorem SyntaxCause.endsApart {cause : SyntaxCause} {s : Subject} (h : cause.subject? = some s)
    (lexeme : String) : EndsApart (cause.message lexeme) " is not a literal" := by
  cases cause with
  | strayComma | emptyArgument | unclosedParenthesis | unopenedParenthesis | emptyExpression
  | danglingBackslash | malformedInteger | malformedFloat =>
    unfold message
    dsimp only
    exact .of_not_suffix (by decide +kernel)
  | missingOperand | missingArguments | unknownEscape | targetNotVariable | targetConstant =>
    exact .append (.of_not_suffix (by decide +kernel)) _
  | malformedDecimal reason =>
    refine .append ?_ _
    cases reason <;> exact .of_not_suffix (by decide +kernel)
  | _ => cases h

theorem OverflowCause.endsApart {cause : OverflowCause} {s : Subject}
    (h : cause.subject? = some s) : EndsApart cause.message " is not a literal" := by
  cases cause with
  | integer | float => exact .append (.of_not_suffix (by decide +kernel)) _
  | decimal => exact .of_not_suffix (by decide +kernel)
  | reported => cases h

theorem KindCause.endsApart {cause : KindCause} {s : Subject} (h : cause.subject? = some s) :
    EndsApart cause.message " is not a literal" := by
  cases cause with
  | unknownFunction | noOverload => exact .append (.of_not_suffix (by decide +kernel)) _
  | _ => cases h

theorem ConfigCause.endsApart {cause : ConfigCause} {s : Subject} (h : cause.subject? = some s) :
    EndsApart cause.message " is not a literal" := by
  cases cause with
  | unboundConstant => exact .append (.of_not_suffix (by decide +kernel)) _
  | _ => cases h

/-- No fault with a subject says that something is not a literal. -/
theorem Fault.About.message_ne {ss : List Subject} {e : Fault} (h : e.About ss) (text : String) :
    e.message ≠ text ++ " is not a literal" := by
  obtain ⟨s, -, h⟩ := h
  have hends : EndsApart e.message " is not a literal" := by
    cases e with
    | syntactic p cause => exact (cause.endsApart h _).append _
    | overflow p cause => exact (cause.endsApart h).append _
    | kind cause => exact (cause.endsApart h).append _
    | runtime cause => cases h
    | config cause => exact (cause.endsApart h).append _
  simpa using hends "" text

/-! ## Literals -/

namespace Token

theorem about_integerValue (t : Token) (precision : IntPrecision) :
    FaultsIn (Fault.About [.literal]) (t.integerValue precision) := by
  have hwhole : FaultsIn (Fault.About [.literal]) t.wholeNumber := by
    unfold wholeNumber
    simp only
    split
    · exact .error (.of rfl (by simp))
    · exact .ok _
  unfold integerValue
  split
  · exact .error (hwhole.fault _ ‹_›)
  rename_i n _
  cases precision with
  | i32 => cases int32? n with
    | some n => exact .ok _
    | none => exact .error (.of rfl (by simp))
  | i64 => cases int64? n with
    | some n => exact .ok _
    | none => exact .error (.of rfl (by simp))

theorem about_floatValue (t : Token) (precision : FloatPrecision) :
    FaultsIn (Fault.About [.literal]) (t.floatValue precision) := by
  have hnumeral : FaultsIn (Fault.About [.literal]) t.numeral := by
    unfold numeral
    split
    · exact .ok _
    · exact .error (.of rfl (by simp))
  unfold floatValue
  split
  · exact .error (hnumeral.fault _ ‹_›)
  unfold decimalValue
  cases precision <;> simp only <;> split <;> first
    | exact .ok _
    | exact .error (.of rfl (by simp))

/-- What stops the reading of a string literal is about literals. -/
theorem subject?_of_unescapeChars {cs : List Char} {cause : SyntaxCause}
    (h : unescapeChars cs = .error cause) : cause.subject? = some .literal := by
  fun_induction unescapeChars cs with
  | case1 => simp at h
  | case2 => exact Except.error.inj h ▸ rfl
  | case3 c cs d hd ih => exact ih (Except.map_eq_error.1 h)
  | case4 c cs hc => exact Except.error.inj h ▸ rfl
  | case5 c cs hne hne' ih => exact ih (Except.map_eq_error.1 h)

theorem about_unescape (t : Token) : FaultsIn (Fault.About [.literal]) t.unescape := by
  unfold unescape
  split
  · exact .ok _
  · exact .error (.of (subject?_of_unescapeChars ‹_›) (by simp))

/-- A literal without a value is a fault about literals. -/
theorem about_literalValue (t : Token) (settings : Settings) (k : LiteralKind) :
    FaultsIn (Fault.About [.literal]) (t.literalValue settings k) := by
  cases k with
  | integer => exact t.about_integerValue _
  | float => exact t.about_floatValue _
  | string => exact t.about_unescape.map _
  | boolean | null => exact .ok _

end Token

/-! ## Building -/

namespace Node

variable (ctx : BuildContext) (stack : List Node) {e : Element}

theorem about_ofCall (e : Element) :
    FaultsIn (Fault.About [.operand, .function]) (ofCall ctx e stack) := by
  have hresolve : FaultsIn (Fault.About [.operand, .function])
      (ctx.registry.resolve e.lexeme e.argc) := by
    unfold Registry.resolve
    simp only
    repeat' split
    all_goals first
      | exact .ok _
      | exact .error (.of rfl (by simp))
  unfold ofCall
  split
  · exact .error (hresolve.fault _ ‹_›)
  split
  · exact .error (.of rfl (by simp))
  · exact .ok _

/-- Taking in an element that has a place in postfix order. -/
theorem about_build (h : e.role.isKept = true) :
    FaultsIn (Fault.About [.operand, .literal, .constant, .target, .function])
      (build ctx stack e) := by
  have hpop : FaultsIn (Fault.About [.operand]) (pop e stack) := by
    unfold pop
    split
    · exact .ok _
    · exact .error (.of rfl (by simp))
  have hpair : FaultsIn (Fault.About [.operand]) (popPair e stack) := by
    unfold popPair
    split
    · exact .ok _
    · exact .error (.of rfl (by simp))
  have hname : FaultsIn (Fault.About [.constant]) (ofName ctx e.lexeme) := by
    unfold ofName
    simp only
    split
    · exact .error (.of rfl (by simp))
    · exact .ok _
  have hassign : ∀ op v target, FaultsIn (Fault.About [.target]) (ofAssign e op v target) := by
    intro op v target
    unfold ofAssign
    repeat' split
    all_goals first
      | exact .ok _
      | exact .error (.of rfl (by simp))
  unfold build
  cases hrole : e.role with
  | literal k =>
    have hliteral : ofLiteral ctx e = _ := ofLiteral_of_role hrole
    simp only [hliteral]
    exact (((e.token.about_literalValue _ k).imp fun _ h => h.mono (by simp)).map _).map _
  | name => exact (hname.imp fun _ h => h.mono (by simp)).map _
  | function => exact (about_ofCall ctx stack e).imp fun _ h => h.mono (by simp)
  | sign | not => exact (hpop.imp fun _ h => h.mono (by simp)).map _
  | logic | arith | compare | semicolon => exact (hpair.imp fun _ h => h.mono (by simp)).map _
  | assign op =>
    simp only
    split
    · exact .error ((hpair.fault _ ‹_›).mono (by simp))
    · exact ((hassign ..).imp fun _ h => h.mono (by simp)).map _
  | comma | groupOpen | callOpen | close => simp [hrole, Role.isKept, Role.isParenthesis] at h

/-- Nothing else is taken in. -/
theorem build_of_not_isKept (h : e.role.isKept = false) :
    build ctx stack e = .error (e.fault .unexpectedElement) := by
  unfold build
  cases hrole : e.role with
  | comma | groupOpen | callOpen | close => rfl
  | _ => simp [hrole, Role.isKept, Role.isParenthesis] at h

end Node

end Formula
