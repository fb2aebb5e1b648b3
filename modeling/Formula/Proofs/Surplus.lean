import Formula.Proofs.Rearranging
import Formula.Proofs.Recognition
import Formula.Proofs.Subjects
import Mathlib

/-!
# No operand is left over

The machine that puts elements into postfix order, and the one that builds a tree from them, know
faults that no text comes to (`Element.faults_of_classify`). A parenthesis that opens arguments
has the name of a function in front of it, a comma or a parenthesis is not in the output, and
building leaves at most one tree. So what goes wrong with tokens that have roles is a parenthesis
or a comma out of place, nothing to build from, an operand that is missing, or something about a
literal, a constant, the target of an assignment or a function.

That there is at most one tree is what the grammar's counting gives for the whole output
(`Balanced.of_toPostfix`), gaps included. A tree takes the places of its operands, so the trees
that are left are as many as the elements come to (`Node.length_of_foldlM`).
-/

namespace Formula

open Element (totalWeight)

/-! ## Putting elements into postfix order -/

namespace Sorting

theorem about_comma (s : Sorting) (e : Element) : FaultsIn (Fault.About [.comma]) (s.comma e) := by
  unfold comma
  simp only
  repeat' split
  all_goals first
    | exact .ok _
    | exact .error (.of rfl (by simp))

theorem about_finish (s : Sorting) : FaultsIn (Fault.About [.balance]) s.finish := by
  unfold finish
  simp only
  split
  · exact .ok _
  · exact .error (.of rfl (by simp))

/-- If a parenthesis on top of the waiting elements opens arguments, a function waits below it. -/
def Called (w : List Element) : Prop :=
  ∀ o rest, w = o :: rest → o.role = .callOpen → ∃ f fs, rest = f :: fs ∧ f.role = .function

/-- Closing a parenthesis, if what was opened with it belongs to a function. -/
theorem about_close {s : Sorting} (h : Called (s.release inside).waiting) (e : Element) :
    FaultsIn (Fault.About [.balance, .comma]) (s.close e) := by
  unfold close
  simp only
  split
  · exact .error (.of rfl (by simp))
  rename_i o rest hw
  split
  · rename_i hcall
    obtain ⟨f, fs, rfl, hf⟩ := h o rest hw hcall
    simp only [closeCall, if_pos hf]
    split
    · exact .error (.of rfl (by simp))
    · exact .ok _
  · exact .ok _

end Sorting

open Sorting (Called)

variable {p : Option Role} {ts : List Token} {s : Sorting}

theorem Nest.called (h : Nest ts s) : Called s.waiting := by
  rintro o rest hw hcall
  cases h with
  | top => simp [Sorting.empty] at hw
  | group hn ho ht =>
    obtain ⟨rfl, -⟩ := List.cons.inj hw
    simp at hcall
  | call hn ho hf ht has =>
    obtain ⟨-, rfl⟩ := List.cons.inj hw
    exact ⟨_, _, rfl, rfl⟩

theorem Nest.called_release (h : Nest ts s) : Called (s.release Sorting.inside).waiting := by
  have hstop : s.waiting.dropWhile Sorting.inside = s.waiting := by
    cases hw : s.waiting with
    | nil => rfl
    | cons e w =>
      have he := h.head e (by rw [hw]; rfl)
      exact List.dropWhile_cons_of_neg (by simp [Sorting.inside, he])
  rw [Sorting.release, hstop]
  exact h.called

theorem Filled.called_release (h : Filled ts s) : Called (s.release Sorting.inside).waiting := by
  obtain ⟨nts, cur, s₀, o, hn, hcur, rfl, hrelease⟩ := h.release_inside
  rw [hrelease]
  exact hn.called

namespace Sorting.Invariant

variable {t : Token} {next : Option Token} {r : Role}

/-- A token is read, or a parenthesis or a comma is out of place. -/
theorem about_step (h : Invariant (some t) p ts s) (hr : t.Plays p next r) :
    FaultsIn (Fault.About [.balance, .comma]) (s.step ⟨t, r, 0⟩) := by
  cases hr with
  | close ht =>
    refine about_close ?_ _
    cases h with
    | start hp hf hn => exact hn.called_release
    | waits hp hf hw => exact hw.filled.called_release
    | filled hp hs => exact hs.called_release
    | called hw hf hn =>
      -- a name is that of a function only in front of a parenthesis that opens
      simp [Token.opens, ht] at hn
  | comma ht => exact (s.about_comma _).imp fun _ h => h.mono (by simp)
  | binary ht hp =>
    rw [ht.step]
    exact .ok _
  | sign ht hp =>
    rw [ht.step]
    exact .ok _
  | literal | name | function | group | arguments => exact .ok _

/-- Reading tokens that have roles. -/
theorem about_foldlM {ts' : List Token} {es : List Element} (h : Invariant ts'.head? p ts s)
    (hes : Element.classifyFrom p ts' = .ok es) :
    FaultsIn (Fault.About [.balance, .comma]) (es.foldlM Sorting.step s) := by
  induction ts' generalizing p ts s es with
  | nil =>
    obtain rfl := Except.ok.inj hes
    exact .ok _
  | cons t ts' ih =>
    rw [Element.classifyFrom] at hes
    split at hes
    · simp at hes
    rename_i r hr
    obtain ⟨es, hes', rfl⟩ := Except.map_eq_ok.1 hes
    have hplays := Role.ofToken_eq_ok.1 hr
    rw [List.foldlM_cons]
    exact (h.about_step hplays).bind_of_ok fun s₁ hs => ih (h.step hplays hs) hes'

end Sorting.Invariant

/-- Elements that tokens have become are put into postfix order, or a parenthesis or a comma is out
of place. -/
theorem Element.about_toPostfix {es : List Element} (hes : classify ts = .ok es) :
    FaultsIn (Fault.About [.balance, .comma]) (toPostfix es) := by
  have hstart : Sorting.Invariant ts.head? none [] .empty := .start rfl (by simp) .top
  have hfold := hstart.about_foldlM hes
  unfold toPostfix
  split
  · exact .error (hfold.fault _ ‹_›)
  · exact (Sorting.about_finish _).imp fun _ h => h.mono (by simp)

/-! ## Building a tree -/

theorem Element.isKept_of_toPostfix {es out : List Element} (h : toPostfix es = .ok out) :
    ∀ e ∈ out, e.role.isKept = true := by
  obtain ⟨o, fs, hinv, rfl⟩ := Lineup.Invariant.of_toPostfix h
  intro e he
  obtain ⟨x, hx, rfl⟩ := List.mem_map.1 he
  exact hinv.isKept x (List.mem_reverse.1 hx)

namespace Node

variable {ctx : BuildContext} {es : List Element} {stack : List Node}

/-- The trees that are left are as many as the elements come to. -/
theorem length_of_foldlM (h : es.foldlM (build ctx) [] = .ok stack) :
    (stack.length : Int) = totalWeight es := by
  obtain ⟨trees, hfold, hs⟩ := reduces_of_foldlM (Q := fun _ _ => True)
    (fun _ _ _ _ _ _ _ => trivial) .nil h
  have hlen := Element.length_of_foldlM hfold
  rw [hs.length_eq] at hlen
  simpa using hlen

theorem about_single (h : stack.length ≤ 1) :
    FaultsIn (Fault.About [.emptiness]) (single es stack) := by
  rcases stack with _ | ⟨root, _ | ⟨n, stack⟩⟩
  · exact .error (.of rfl (by simp))
  · exact .ok _
  · simp at h

/-- A tree is built from what has a place in postfix order and comes to at most one, or the fault
is about something that is missing or not known. -/
theorem about_ofPostfix (hkept : ∀ e ∈ es, e.role.isKept = true) (hle : totalWeight es ≤ 1) :
    FaultsIn (Fault.About [.emptiness, .operand, .literal, .constant, .target, .function])
      (ofPostfix ctx es) := by
  unfold ofPostfix
  split
  · rename_i e he
    have hfold := FaultsIn.foldlM_of_mem
      (fun a ha stack => about_build ctx stack (hkept a ha)) ([] : List Node)
    exact .error ((hfold.fault e he).mono (by simp))
  · rename_i stack hstack
    have hlen := length_of_foldlM hstack
    exact (about_single (by omega)).imp fun _ h => h.mono (by simp)

end Node

/-! ## What can go wrong with tokens that have roles -/

namespace Element

/-- Tokens that have roles are put into postfix order unless a parenthesis or a comma is out of
place, and a call always has its name. From what is put into postfix order a tree is built in every
context unless nothing is there, an operand is missing, or it is about a literal, a constant, the
target of an assignment or a function : no operand is left over, no comma or parenthesis comes up
and everything that should be a literal is one. -/
theorem faults_of_classify {es : List Element} (hes : classify ts = .ok es) :
    (∀ e, toPostfix es = .error e →
      e.About [.balance, .comma] ∧ ∀ place, e ≠ .syntactic place .unnamedCall) ∧
    ∀ out, toPostfix es = .ok out → ∀ ctx e, Node.ofPostfix ctx out = .error e →
      e.About [.emptiness, .operand, .literal, .constant, .target, .function] ∧
      (∀ place count, e ≠ .syntactic place (.surplusOperands count)) ∧
      (∀ place, e ≠ .syntactic place .unexpectedElement) ∧
      (∀ place role, e ≠ .syntactic place (.notLiteral role)) ∧
      ∀ text, e.message ≠ text ++ " is not a literal" := by
  refine ⟨fun e he => ?_, fun out hout ctx e he => ?_⟩
  · have habout := (about_toPostfix hes).fault e he
    exact ⟨habout, fun place => habout.ne_of_subject? rfl⟩
  · have hbalanced := Balanced.of_toPostfix hes hout
    have habout := (Node.about_ofPostfix (isKept_of_toPostfix hout) hbalanced.le).fault e he
    exact ⟨habout, fun place count => habout.ne_of_subject? rfl,
      fun place => habout.ne_of_subject? rfl, fun place role => habout.ne_of_subject? rfl,
      habout.message_ne⟩

/-- An argument that is missing behind a comma, and one that is an empty group. The first is seen
at the comma, and the second when the function takes its arguments. -/
theorem faults_of_classify_max :
    (∃ ts es e, Token.scan "max(1,)" = .ok ts ∧ classify ts = .ok es ∧
      toPostfix es = .error e ∧ e.About [.balance, .comma]) ∧
    ∃ ts es out e, Token.scan "max((), 1)" = .ok ts ∧ classify ts = .ok es ∧
      toPostfix es = .ok out ∧ Node.ofPostfix ⟨.standard, .builtins, .empty⟩ out = .error e ∧
      e = .syntactic ⟨1, "max"⟩ (.missingArguments 2) ∧
      (∀ place count, e ≠ .syntactic place (.surplusOperands count)) ∧
      (∀ place role, e ≠ .syntactic place (.notLiteral role)) ∧
      ∀ text, e.message ≠ text ++ " is not a literal" := by
  have hcomma : ((Token.scan "max(1,)").bind fun ts => (classify ts).map toPostfix) =
      .ok (.error (.syntactic ⟨1, ")"⟩ .emptyArgument)) := by cbv
  have hgap : ((Token.scan "max((), 1)").bind fun ts => (classify ts).bind fun es =>
      (toPostfix es).map (Node.ofPostfix ⟨.standard, .builtins, .empty⟩)) =
      .ok (.error (.syntactic ⟨1, "max"⟩ (.missingArguments 2))) := by cbv
  obtain ⟨ts, hts, hcomma⟩ := Except.bind_eq_ok.1 hcomma
  obtain ⟨es, hes, hcomma⟩ := Except.map_eq_ok.1 hcomma
  obtain ⟨ts', hts', hgap⟩ := Except.bind_eq_ok.1 hgap
  obtain ⟨es', hes', hgap⟩ := Except.bind_eq_ok.1 hgap
  obtain ⟨out, hout, hgap⟩ := Except.map_eq_ok.1 hgap
  have hfaults := (faults_of_classify hes').2 out hout _ _ hgap
  exact ⟨⟨ts, es, _, hts, hes, hcomma, ((faults_of_classify hes).1 _ hcomma).1⟩,
    ts', es', out, _, hts', hes', hout, hgap, rfl, hfaults.2.1, hfaults.2.2.2⟩

end Element

end Formula
