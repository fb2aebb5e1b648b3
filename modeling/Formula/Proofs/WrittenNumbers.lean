import Formula.Proofs.NumberLiterals
import Formula.Proofs.Runs
import Formula.Proofs.Sessions
import Formula.Proofs.Spelling
import Formula.Proofs.WholeNumbers

/-!
# Writing whole numbers

A whole number is written as its digits, behind as many zeros as one likes, and behind a minus
sign if it is negative (`wholeText`). Such a text comes to the number in every run, optimized or
not, if its digits fit the kind of whole literals (`Compiler.runs_wholeText`).

The sign is an operator and no part of the literal, and so it is the digits alone that have to
fit. They do for every number in range but the least one, whose digits write one more than the
largest number : its text is refused as that of a number out of range is, and a formula that is
to come to it has to compute it.
-/

namespace Formula

/-! ## Digits -/

/-- The digits of a number, behind some zeros. -/
def wholeDigits (zeros n : Nat) : List Char := List.replicate zeros '0' ++ Nat.toDigits 10 n

theorem areDigits_wholeDigits (zeros n : Nat) : AreDigits (wholeDigits zeros n) where
  ne_nil := List.append_ne_nil_of_right_ne_nil _ Nat.toDigits_ne_nil
  all := by
    rw [List.all_eq_true]
    intro c hc
    rcases List.mem_append.1 hc with hc | hc
    · obtain rfl := List.eq_of_mem_replicate hc
      rfl
    · exact Nat.isDigit_of_mem_toDigits (by decide) (by decide) hc

/-- Zeros in front of the digits do not count. -/
theorem digitsValue_wholeDigits (zeros n : Nat) : digitsValue (wholeDigits zeros n) = n := by
  have hvalue : digitsValue (wholeDigits zeros n) =
      Nat.ofDigitChars 10 (List.replicate zeros '0' ++ Nat.toDigits 10 n) 0 := rfl
  rw [hvalue, Nat.ofDigitChars_append, Nat.ofDigitChars_replicate_zero, Nat.mul_zero,
    Nat.ofDigitChars_ten_toDigits]

/-- The text of a whole number : its digits behind some zeros, and a minus sign in front of them
if it is negative. -/
def wholeText (zeros : Nat) (n : Int) : String :=
  String.ofList ((if n < 0 then ['-'] else []) ++ wholeDigits zeros n.natAbs)

/-- Without zeros, it is the text that values are shown as. -/
theorem wholeText_zero (n : Int) : wholeText 0 n = toString n := by
  cases n with
  | ofNat m =>
    have hm : ¬ Int.ofNat m < 0 := Int.not_lt.2 (Int.natCast_nonneg m)
    rw [wholeText, if_neg hm]
    rfl
  | negSucc m =>
    rw [wholeText, if_pos (Int.negSucc_lt_zero m)]
    exact String.ofList_append

/-! ## Tokens -/

namespace AreDigits

variable {ds : List Char}

/-- Digits at the end of a text are one token. -/
theorem scansAs (hd : AreDigits ds) (line : UInt32) :
    ScansAs line ds [⟨String.ofList ds, .integer, line⟩] := by
  cases ds with
  | nil => exact absurd rfl hd.ne_nil
  | cons c cs =>
    have hc : c.isDigit = true := (Bool.and_eq_true_iff.1 hd.all).1
    have hspace : isSpace c = false := isSpace_eq_false hc rfl
    have hrun : runLength Char.isDigit (c :: cs) = (c :: cs).length := by
      simpa [runLength] using runLength_append_of_all hd.all []
    have hmantissa : mantissaLength (c :: cs) = (c :: cs).length := by
      rw [mantissaLength, hrun, List.drop_length]
      rfl
    have hpiece : pieceAt c (cs ++ []) = .token .integer cs.length 0 := by
      rw [List.append_nil, pieceAt_eq, startsNumber, hc, numberAt_eq, hmantissa, hrun,
        List.drop_length]
      rfl
    simpa using ScansAs.token hspace hpiece .nil

/-- A minus sign in front of digits is a token of its own. -/
theorem scansAs_minus (hd : AreDigits ds) (line : UInt32) :
    ScansAs line ('-' :: ds) [⟨"-", .operator, line⟩, ⟨String.ofList ds, .integer, line⟩] := by
  refine ScansAs.char rfl ?_ (hd.scansAs line)
  cases ds with
  | nil => exact absurd rfl hd.ne_nil
  | cons c cs =>
    have hc : c.isDigit = true := (Bool.and_eq_true_iff.1 hd.all).1
    have hlong : longSymbols.contains ('-', c) = false := by
      rw [Bool.eq_false_iff]
      intro hlong
      obtain rfl := by simpa [longSymbols] using hlong
      cases hc
    simp only [pieceAt, symbolAt, List.head?_cons, Option.any_some, hlong]
    rfl

end AreDigits

theorem Settings.isWhole_integerKind (s : Settings) : s.integerKind.isWhole = true := by
  rw [integerKind]
  cases s.intPrecision <;> rfl

/-- The token of the digits of a whole number. -/
def wholeToken (zeros n : Nat) : Token := ⟨String.ofList (wholeDigits zeros n), .integer, 1⟩

theorem wholeNumber_wholeToken (zeros n : Nat) : (wholeToken zeros n).wholeNumber = .ok n := by
  have hdigits := areDigits_wholeDigits zeros n
  rw [Token.wholeNumber]
  simp only [wholeToken, String.toList_ofList, hdigits.all, digitsValue_wholeDigits]
  rw [if_neg (by simp [hdigits.ne_nil])]

/-- The outcome is the number, as a value of the kind, if it fits the kind, and the fault of a
literal that is too large otherwise. -/
structure Token.Reads (t : Token) (k : Kind) (n : Nat) (r : Except Fault Value) : Prop where
  value : k.Fits n → ∃ w : Value, w.kind = k ∧ w.number = n ∧ r = .ok w
  fault : ¬ k.Fits n → ∃ bits, r = .error (.overflow t.place (.integer bits))

theorem IsWidth.reads {α : Type} {k : Kind} {fit? : Int → Option α} {toValue : α → Value}
    (hw : IsWidth k fit? toValue) {t : Token} {n : Nat} {r : Except Fault Value}
    (hok : ∀ a, fit? n = some a → r = .ok (toValue a))
    (hfault : fit? n = none → ∃ bits, r = .error (.overflow t.place (.integer bits))) :
    t.Reads k n r where
  value hfits := by
    obtain ⟨a, ha, hnumber⟩ := hw.fits hfits
    exact ⟨toValue a, hw.kind a, hnumber, hok a ha⟩
  fault hfits := hfault (hw.misfits hfits)

theorem Token.reads_integerValue {t : Token} {n : Nat} (hn : t.wholeNumber = .ok n)
    (settings : Settings) :
    t.Reads settings.integerKind n (t.integerValue settings.intPrecision) := by
  unfold integerValue
  split
  case h_1 h => cases hn.symm.trans h
  rename_i m hm
  obtain rfl := Except.ok.inj (hm.symm.trans hn)
  unfold Settings.integerKind
  cases settings.intPrecision with
  | i32 =>
    refine isWidth_integer.reads (fun a ha => ?_) (fun hnone => ⟨32, ?_⟩)
    · rw [ha]
    · rw [hnone]
      rfl
  | i64 =>
    refine isWidth_long.reads (fun a ha => ?_) (fun hnone => ⟨64, ?_⟩)
    · rw [ha]
    · rw [hnone]
      rfl

/-- In postfix order the digits come first, and then the sign. -/
theorem postfixOfText_wholeText (zeros : Nat) (n : Int) :
    Element.postfixOfText (wholeText zeros n) =
      .ok (⟨wholeToken zeros n.natAbs, .literal .integer, 0⟩ ::
        if n < 0 then [⟨⟨"-", .operator, 1⟩, .sign .minus, 0⟩] else []) := by
  have hdigits := areDigits_wholeDigits zeros n.natAbs
  have hliteral : Derives .signed [wholeToken zeros n.natAbs]
      [.node ⟨wholeToken zeros n.natAbs, .literal .integer, 0⟩ []] :=
    .lift (by decide) (.literal (.inl (by simp [wholeToken])))
  by_cases hn : n < 0
  · rw [wholeText, if_pos hn, if_pos hn]
    exact Element.postfixOfText_of_derives (Token.scan_ofList (hdigits.scansAs_minus 1))
      (.lift (by decide) (.sign ⟨rfl, by decide⟩ hliteral))
  · rw [wholeText, if_neg hn, if_neg hn]
    exact Element.postfixOfText_of_derives (Token.scan_ofList (hdigits.scansAs 1))
      (.lift (by decide) hliteral)

/-! ## Trees -/

/-- The tree of a number that was written : its literal, or a minus sign in front of one. -/
inductive Node.Written (v : Value) : Node → Prop
  | literal : Written v (.literal v)
  | minus {w : Value} {s : Slot} (hw : w.negate = .ok v) (hs : s.Admits v.kind) :
      Written v (.sign .minus (.literal w) s)

namespace Node.Written

variable {v : Value} {n : Node}

/-- It comes to the number, run after run, and touches nothing. -/
theorem execute (h : Written v n) (env : Env) : (n.execute env).result = .ok v ∧
    (n.execute env).env = env ∧ Written v (n.execute env).node := by
  cases h with
  | literal =>
    rw [Node.execute]
    exact ⟨rfl, rfl, .literal⟩
  | @minus w s hw hs =>
    have hrun : (Node.sign .minus (.literal w) s).execute env =
        ⟨.sign .minus (.literal w) (.holding v), env, .ok v⟩ :=
      Node.execute_sign_ok.2 ⟨hs, .literal w, w, by rw [Node.execute], hw, rfl⟩
    rw [hrun]
    exact ⟨rfl, rfl, .minus hw (.inr rfl)⟩

/-- Optimizing makes a literal of it. -/
theorem optimize (h : Written v n) (env : Env) : n.optimize env = ⟨.ok (.literal v), env⟩ := by
  cases h with
  | literal => rw [Node.optimize]
  | @minus w s hw hs =>
    obtain ⟨hresult, henv, -⟩ := (Written.minus hw hs).execute env
    simp only [Node.optimize, Reduction.andThen, isPrecomputable, if_true, fold, isLiteral,
      Bool.not_false, Bool.and_self, hresult, henv, Except.map]

theorem validate (h : Written v n) (hv : v.kind.isNumeric = true) : n.validate = .ok () := by
  cases h with
  | literal => rw [Node.validate]
  | @minus w s hw hs =>
    have hnumeric : w.kind.isNumeric = true := by
      rw [(applySign_kind (s := .minus) hw).2] at hv
      exact hv
    simp only [Node.validate, Kind.checkSign, kind?, if_pos hnumeric]
    rfl

end Node.Written

namespace Compiler

variable (c : Compiler) (zeros : Nat) (scope : Scope)

/-- The tree of the text of a number whose digits fit. -/
theorem build_wholeText {n : Int} (hn : c.settings.integerKind.Fits n.natAbs) :
    ∃ v root, v.kind = c.settings.integerKind ∧ v.number = n ∧
      c.build (wholeText zeros n) scope = .ok root ∧ root.Written v := by
  obtain ⟨w, hkind, hnumber, hw⟩ :=
    (Token.reads_integerValue (wholeNumber_wholeToken zeros n.natAbs) c.settings).value hn
  have hwhole : w.kind.isWhole = true := hkind ▸ c.settings.isWhole_integerKind
  have hnumeric : w.kind.isNumeric = true := by rw [Kind.isNumeric, hwhole, Bool.true_or]
  have hliteral : Node.build ⟨c.settings, c.registry, scope⟩ []
      ⟨wholeToken zeros n.natAbs, .literal .integer, 0⟩ = .ok [.literal w] :=
    Except.map_eq_ok.2 ⟨.literal w, Except.map_eq_ok.2 ⟨w, hw, rfl⟩, rfl⟩
  by_cases hneg : n < 0
  · have hexactly := Value.isExactly_negate hwhole
    have hfits : w.kind.Fits n := by
      have hlt := hn.2
      rw [hkind]
      exact ⟨by omega, by omega⟩
    obtain ⟨v, hv⟩ := hexactly.ok_iff.2 ⟨n, by omega, hfits⟩
    obtain ⟨hvkind, hvn⟩ := hexactly.value v hv
    have hwritten : Node.Written v (.sign .minus (.literal w) (.ofKind (some w.kind))) :=
      .minus hv (.inr (congrArg some hvkind.symm))
    refine ⟨v, _, hvkind.trans hkind, by omega, build_eq_ok.2 ⟨_, postfixOfText_wholeText zeros n,
      ?_, fun _ => hwritten.validate (hvkind ▸ hnumeric)⟩, hwritten⟩
    rw [if_pos hneg]
    refine Node.ofPostfix_of_foldlM (Node.foldlM_build_cons hliteral ?_)
    have hsign : Node.build ⟨c.settings, c.registry, scope⟩ [.literal w]
        ⟨⟨"-", .operator, 1⟩, .sign .minus, 0⟩ =
          .ok [.sign .minus (.literal w) (.ofKind (some w.kind))] := by
      simp only [Node.build, Node.pop, Except.map, Node.kind?, Option.filter_some, hnumeric,
        if_true]
    exact Node.foldlM_build_cons hsign rfl
  · have hwritten : Node.Written w (.literal w) := .literal
    refine ⟨w, _, hkind, by omega, build_eq_ok.2 ⟨_, postfixOfText_wholeText zeros n, ?_,
      fun _ => hwritten.validate hnumeric⟩, hwritten⟩
    rw [if_neg hneg]
    exact Node.ofPostfix_of_foldlM (Node.foldlM_build_cons hliteral rfl)

/-- The text of a number whose digits do not fit is refused. -/
theorem build_wholeText_overflow {n : Int} (hn : ¬ c.settings.integerKind.Fits n.natAbs) :
    ∃ bits, c.build (wholeText zeros n) scope =
      .error (.overflow (wholeToken zeros n.natAbs).place (.integer bits)) := by
  obtain ⟨bits, hbits⟩ :=
    (Token.reads_integerValue (wholeNumber_wholeToken zeros n.natAbs) c.settings).fault hn
  have hliteral : Node.build ⟨c.settings, c.registry, scope⟩ []
      ⟨wholeToken zeros n.natAbs, .literal .integer, 0⟩ =
        .error (.overflow (wholeToken zeros n.natAbs).place (.integer bits)) :=
    congrArg (fun v => (v.map Node.literal).map ([·])) hbits
  refine ⟨bits, ?_⟩
  rw [build, postfixOfText_wholeText]
  simp only [bind, Except.bind, Node.ofPostfix, List.foldlM_cons, hliteral]

/-- The text of a whole number comes to the number, in the kind of whole literals and in every
run, optimized or not, for all numbers of the kind but the least one. The least number and all
that are out of range are refused while compiling, as an overflow at their digits. -/
theorem runs_wholeText (n : Int) (before : History) :
    (c.settings.integerKind.Fits n ∧ n ≠ -c.settings.integerKind.bound →
      ∃ v plain reduced, v.kind = c.settings.integerKind ∧ v.number = n ∧
        c.compilePlain (wholeText zeros n) scope = .ok plain ∧
        (c.compile (wholeText zeros n) scope before).result = .ok reduced ∧
        ∀ e, e = plain ∨ e = reduced → ∀ history scopes, ∀ r ∈ e.runs history scopes,
          r.result = .ok v) ∧
    (¬ c.settings.integerKind.Fits n ∨ n = -c.settings.integerKind.bound →
      ∃ bits, c.compilePlain (wholeText zeros n) scope =
          .error (.overflow (wholeToken zeros n.natAbs).place (.integer bits)) ∧
        (c.compile (wholeText zeros n) scope before).result =
          .error (.overflow (wholeToken zeros n.natAbs).place (.integer bits))) := by
  constructor
  · rintro ⟨hfits, hne⟩
    obtain ⟨v, root, hkind, hn, hroot, hwritten⟩ :=
      c.build_wholeText zeros scope (n := n) (by unfold Kind.Fits at *; omega)
    refine ⟨v, .ofNode root, .ofNode (.literal v), hkind, hn, ?_, ?_, ?_⟩
    · rw [compilePlain, hroot]
      rfl
    · exact compile_eq_ok.2 ⟨root, .literal v, hroot, by rw [hwritten.optimize], rfl⟩
    · intro e he history scopes
      have hroot : e.root.Written v := by
        obtain rfl | rfl := he
        · exact hwritten
        · exact .literal
      refine Expression.forall_runs (I := Node.Written v) (P := fun _ => True)
        (fun e env hroot _ => ?_) hroot fun _ _ => trivial
      obtain ⟨hresult, -, hnode⟩ := hroot.execute env
      exact ⟨hnode, hresult⟩
  · intro h
    have hmisfits : ¬ c.settings.integerKind.Fits n.natAbs := by
      unfold Kind.Fits at *
      omega
    obtain ⟨bits, hbits⟩ := c.build_wholeText_overflow zeros scope hmisfits
    refine ⟨bits, ?_, ?_⟩
    · rw [compilePlain, hbits]
      rfl
    · rw [compile, hbits]

/-- The number next to the least one can be written, and the least one cannot. -/
theorem runs_wholeText_least :
    wholeText 2 (-2147483647) = "-002147483647" ∧
      (∃ v plain reduced, v.kind = .integer ∧ v.number = -2147483647 ∧
        standard.compilePlain (wholeText 2 (-2147483647)) .empty = .ok plain ∧
        (standard.compile (wholeText 2 (-2147483647)) .empty []).result = .ok reduced ∧
        ∀ e, e = plain ∨ e = reduced → ∀ history scopes, ∀ r ∈ e.runs history scopes,
          r.result = .ok v) ∧
      ∃ bits, standard.compilePlain (wholeText 0 (-2147483648)) .empty =
          .error (.overflow ⟨1, "2147483648"⟩ (.integer bits)) ∧
        (standard.compile (wholeText 0 (-2147483648)) .empty []).result =
          .error (.overflow ⟨1, "2147483648"⟩ (.integer bits)) := by
  have hplace : (wholeToken 0 (Int.natAbs (-2147483648))).place = ⟨1, "2147483648"⟩ := by cbv
  have hleast : (-2147483648 : Int) = -standard.settings.integerKind.bound := by decide
  obtain ⟨bits, hplain, hreduced⟩ :=
    (standard.runs_wholeText 0 .empty (-2147483648) []).2 (.inr hleast)
  rw [hplace] at hplain hreduced
  exact ⟨by cbv, (standard.runs_wholeText 2 .empty (-2147483647) []).1
    ⟨⟨by decide, by decide⟩, by decide⟩, bits, hplain, hreduced⟩

/-- The least number of 32 bits is in range, but the text of it is refused : its digits are not a
number in range. -/
theorem compile_least_integer :
    standard.settings.integerKind = .integer ∧ Kind.integer.Fits (-2147483648) ∧
      wholeText 0 (-2147483648) = "-2147483648" ∧
      ∃ bits, standard.compilePlain "-2147483648" .empty =
          .error (.overflow ⟨1, "2147483648"⟩ (.integer bits)) ∧
        (standard.compile "-2147483648" .empty []).result =
          .error (.overflow ⟨1, "2147483648"⟩ (.integer bits)) := by
  have htext : wholeText 0 (-2147483648) = "-2147483648" := by cbv
  have hplace : (wholeToken 0 (Int.natAbs (-2147483648))).place = ⟨1, "2147483648"⟩ := by cbv
  have hmisfits : ¬ standard.settings.integerKind.Fits (Int.natAbs (-2147483648)) :=
    fun h => absurd h.2 (by decide)
  obtain ⟨bits, hbits⟩ := build_wholeText_overflow standard 0 .empty hmisfits
  rw [htext, hplace] at hbits
  refine ⟨rfl, ⟨by decide, by decide⟩, htext, bits, ?_, ?_⟩
  · rw [compilePlain, hbits]
    rfl
  · rw [compile, hbits]

end Compiler

end Formula
