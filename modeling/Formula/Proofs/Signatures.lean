import Formula.Proofs.Building
import Formula.Proofs.Kinds

/-!
# Kinds under a signature

Nothing is known of the kind of a call before it is run. A signature says with what kind a
function answers, given the kinds of its arguments, and `Node.withSignature` is the tree with all
that is known of its kinds then.

In a tree that is consistent under a signature (`Node.Consistent`) no kinds that are known then
clash where they meet, and no slot knows more. It may know less : a call that has not been run
knows nothing of its kind. So a consistent tree is valid as it stands
(`Node.Consistent.validate`), and a tree that was built is consistent if it is valid with the
signature (`Node.Built.consistent`).
-/

namespace Formula

/-! ## Signatures -/

/-- What is known of the kind with which a function answers, given its number and the kinds of the
arguments. -/
abbrev Signature := Nat → List Kind → Option Kind

namespace Signature

/-- Nothing is known. -/
def unknown : Signature := fun _ _ => none

/-- What is known of a call, given what is known of its arguments. -/
def answer (sig : Signature) (number : Nat) (ks : List (Option Kind)) : Option Kind :=
  (ks.mapM id).bind (sig number)

theorem answer_known (sig : Signature) (number : Nat) (ks : List Kind) :
    sig.answer number (ks.map some) = sig number ks := by
  have hmapM : (ks.map some).mapM id = some ks := by
    induction ks with
    | nil => rfl
    | cons k ks ih => simp [ih]
  rw [answer, hmapM, Option.bind_some]

theorem answer_unknown (number : Nat) (ks : List (Option Kind)) :
    unknown.answer number ks = none := by
  unfold answer
  cases ks.mapM id <;> rfl

end Signature

/-! ## Knowing less -/

/-- One knows no more than the other, and nothing else. -/
def Kind.AtMost (known full : Option Kind) : Prop := known = none ∨ known = full

namespace Kind.AtMost

variable {a b a' b' : Option Kind}

theorem refl : AtMost a a := .inr rfl

theorem of_none : AtMost none a := .inl rfl

theorem static? (h : AtMost a a') (h' : AtMost b b') :
    AtMost (Kind.static? a b) (Kind.static? a' b') := by
  rcases h with rfl | rfl
  · exact .inl rfl
  rcases h' with rfl | rfl
  · exact .inl (by cases a <;> rfl)
  · exact .refl

theorem filter (h : AtMost a a') (p : Kind → Bool) : AtMost (a.filter p) (a'.filter p) := by
  rcases h with rfl | rfl
  · exact .of_none
  · exact .refl

/-- A check that lets pass what nothing is known of. -/
theorem check {f : Option Kind → Except Fault Unit} (hf : f a' = .ok ()) (hnone : f none = .ok ())
    (h : AtMost a a') : f a = .ok () := by
  rcases h with rfl | rfl
  · exact hnone
  · exact hf

theorem checkBoth {f : Option Kind → Option Kind → Except Fault Unit} (hf : f a' b' = .ok ())
    (hleft : ∀ b, f none b = .ok ()) (hright : ∀ a, f a none = .ok ()) (h : AtMost a a')
    (h' : AtMost b b') : f a b = .ok () := by
  rcases h with rfl | rfl
  · exact hleft b
  · exact check hf (hright a) h'

end Kind.AtMost

namespace Node

/-- Whether values of the kinds can be compared, as far as they are known. -/
def checkCompared (op : CompareOp) (a b : Option Kind) : Except Fault Unit :=
  match a, b with
  | some a, some b => Kind.checkComparison op a b
  | _, _ => .ok ()

theorem checkAssign_atMost {op : AssignOp} {name : String} {target k k' : Option Kind}
    (h : Kind.AtMost k k') (hok : checkAssign op name target k' = .ok ()) :
    checkAssign op name target k = .ok () := by
  refine h.check hok ?_
  unfold checkAssign
  cases op.arith? with
  | none => rfl
  | some a => cases target <;> rfl

/-! ## Consistent trees -/

mutual

/-- The tree with what is known of its kinds if functions answer as the signature says. -/
def withSignature (sig : Signature) : Node → Node
  | literal v => literal v
  | read name c s => read name c s
  | logic op l r s => logic op (withSignature sig l) (withSignature sig r) s
  | not a s => not (withSignature sig a) s
  | sign g a _ =>
    let a := withSignature sig a
    sign g a (.ofKind (a.kind?.filter Kind.isNumeric))
  | arith op l r _ =>
    let l := withSignature sig l
    let r := withSignature sig r
    arith op l r (.ofKind (Kind.static? l.kind? r.kind?))
  | compare op l r s => compare op (withSignature sig l) (withSignature sig r) s
  | assign op name target v _ =>
    let v := withSignature sig v
    assign op name target v (.ofKind (op.static? target v.kind?))
  | call name f args b _ =>
    let args := withSignatureAll sig args
    call name f args b (.ofKind (sig.answer f.number (args.map kind?)))
  | sequence a b _ =>
    let b := withSignature sig b
    sequence (withSignature sig a) b (.ofKind b.kind?)

/-- The trees with what is known of their kinds. -/
def withSignatureAll (sig : Signature) : List Node → List Node
  | [] => []
  | n :: ns => withSignature sig n :: withSignatureAll sig ns

end

theorem withSignatureAll_eq_map (sig : Signature) :
    ∀ ns : List Node, withSignatureAll sig ns = ns.map (withSignature sig)
  | [] => rfl
  | n :: ns => by rw [withSignatureAll, withSignatureAll_eq_map sig ns, List.map_cons]

/-- What is known of the kind of a tree if functions answer as the signature says. No kinds clash
that are known, slots know no more than that, and the kind of a constant is known. -/
inductive Consistent (sig : Signature) : Node → Option Kind → Prop
  | literal (v : Value) : Consistent sig (literal v) (some v.kind)
  | read {name : String} {c : Bool} {s : Slot} (hc : c = true → s.kind.isSome = true) :
      Consistent sig (read name c s) s.kind
  | logic {op : Connective} {l r : Node} {s : Slot} {k k' : Option Kind} (hl : Consistent sig l k)
      (hr : Consistent sig r k') (hkl : Kind.checkBoolean op.symbol k = .ok ())
      (hkr : Kind.checkBoolean op.symbol k' = .ok ()) :
      Consistent sig (logic op l r s) (some .boolean)
  | not {a : Node} {s : Slot} {k : Option Kind} (ha : Consistent sig a k)
      (hk : Kind.checkBoolean "!" k = .ok ()) : Consistent sig (not a s) (some .boolean)
  | sign {g : Sign} {a : Node} {s : Slot} {k : Option Kind} (ha : Consistent sig a k)
      (hk : Kind.checkSign g k = .ok ()) (hs : Kind.AtMost s.kind k) : Consistent sig (sign g a s) k
  | arith {op : ArithOp} {l r : Node} {s : Slot} {k k' : Option Kind} (hl : Consistent sig l k)
      (hr : Consistent sig r k') (hk : Kind.checkMeeting k k' = .ok ())
      (hs : Kind.AtMost s.kind (Kind.static? k k')) :
      Consistent sig (arith op l r s) (Kind.static? k k')
  | compare {op : CompareOp} {l r : Node} {s : Slot} {k k' : Option Kind} (hl : Consistent sig l k)
      (hr : Consistent sig r k') (hk : checkCompared op k k' = .ok ()) :
      Consistent sig (compare op l r s) (some .boolean)
  | assign {op : AssignOp} {name : String} {target : Option Kind} {v : Node} {s : Slot}
      {k : Option Kind} (hv : Consistent sig v k) (hk : checkAssign op name target k = .ok ())
      (hs : Kind.AtMost s.kind (op.static? target k)) :
      Consistent sig (assign op name target v s) (op.static? target k)
  | call {name : String} {f : Overload} {args : List Node} {b : Buffer} {s : Slot}
      {ks : List (Option Kind)} (hargs : List.Forall₂ (Consistent sig) args ks)
      (hs : Kind.AtMost s.kind (sig.answer f.number ks)) :
      Consistent sig (call name f args b s) (sig.answer f.number ks)
  | sequence {a b : Node} {s : Slot} {k k' : Option Kind} (ha : Consistent sig a k)
      (hb : Consistent sig b k') (hs : Kind.AtMost s.kind k') : Consistent sig (sequence a b s) k'

namespace Consistent

variable {sig : Signature} {n : Node} {k : Option Kind}

/-- A tree knows no more of its kind than the signature gives. -/
theorem atMost (h : Consistent sig n k) : Kind.AtMost n.kind? k := by
  cases h with
  | literal v => exact .refl
  | read hc => exact .refl
  | logic => exact .refl
  | not => exact .refl
  | compare => exact .refl
  | sign ha hk hs => exact hs
  | arith hl hr hk hs => exact hs
  | assign hv hk hs => exact hs
  | call hargs hs => exact hs
  | sequence ha hb hs => exact hs

theorem exists_consistent {ns : List Node} {ks : List (Option Kind)}
    (h : List.Forall₂ (Consistent sig) ns ks) (hn : n ∈ ns) : ∃ k, Consistent sig n k := by
  induction h with
  | nil => simp at hn
  | cons hm hns ih =>
    rcases List.mem_cons.1 hn with rfl | hn
    · exact ⟨_, hm⟩
    · exact ih hn

theorem validateAll {ns : List Node} (h : ∀ n ∈ ns, n.validate = .ok ()) :
    Node.validateAll ns = .ok () := by
  induction ns with
  | nil => rfl
  | cons n ns ih =>
    rw [List.forall_mem_cons] at h
    rw [Node.validateAll, h.1]
    exact ih h.2

/-- A consistent tree is valid. -/
theorem validate (h : Consistent sig n k) : n.validate = .ok () := by
  induction n generalizing k with
  | literal v => rw [Node.validate]
  | read name c s => rw [Node.validate]
  | logic op l r s ihl ihr =>
    cases h with
    | logic hl hr hkl hkr =>
      rw [Node.validate, ihl hl, ihr hr]
      have hleft : Kind.checkBoolean op.symbol l.kind? = .ok () := hl.atMost.check hkl rfl
      have hright : Kind.checkBoolean op.symbol r.kind? = .ok () := hr.atMost.check hkr rfl
      rw [hleft, hright]
      rfl
  | not a s ih =>
    cases h with
    | not ha hk =>
      rw [Node.validate, ih ha]
      exact ha.atMost.check hk rfl
  | sign g a s ih =>
    cases h with
    | sign ha hk hs =>
      rw [Node.validate, ih ha]
      exact ha.atMost.check hk rfl
  | arith op l r s ihl ihr =>
    cases h with
    | arith hl hr hk hs =>
      rw [Node.validate, ihl hl, ihr hr]
      exact hl.atMost.checkBoth hk (fun _ => rfl) (fun a => by cases a <;> rfl) hr.atMost
  | compare op l r s ihl ihr =>
    cases h with
    | compare hl hr hk =>
      rw [Node.validate, ihl hl, ihr hr]
      exact hl.atMost.checkBoth hk (fun _ => rfl) (fun a => by cases a <;> rfl) hr.atMost
  | assign op name target v s ih =>
    cases h with
    | assign hv hk hs =>
      rw [Node.validate, ih hv]
      exact checkAssign_atMost hv.atMost hk
  | call name f args b s ih =>
    cases h with
    | call hargs hs =>
      rw [Node.validate]
      refine validateAll fun a ha => ?_
      obtain ⟨k, hk⟩ := exists_consistent hargs ha
      exact ih a ha hk
  | sequence a b s iha ihb =>
    cases h with
    | sequence ha hb hs =>
      rw [Node.validate, iha ha]
      exact ihb hb

end Consistent

/-! ## Trees that were built -/

variable {ctx : BuildContext} {es : List Element} {n : Node} {sig : Signature}

/-- Where nothing is known of functions, no more is known of a tree than when it was built. -/
theorem Built.withSignature_unknown (hb : Built ctx es n) : n.withSignature .unknown = n := by
  induction hb with
  | literal v => rw [withSignature]
  | read he hrole hbound => rw [withSignature]
  | logic hl hr ihl ihr => rw [withSignature, ihl, ihr]
  | not ha ih => rw [withSignature, ih]
  | sign ha ih => rw [withSignature, ih]
  | arith hl hr ihl ihr => rw [withSignature, ihl, ihr]
  | compare hl hr ihl ihr => rw [withSignature, ihl, ihr]
  | assign he hrole hvar hop hv ih => rw [withSignature, ih]
  | call he hrole hlen hf hargs ih =>
    rw [withSignature, withSignatureAll_eq_map, List.map_congr_left ih, List.map_id',
      Signature.answer_unknown]
  | sequence ha hb iha ihb => rw [withSignature, iha, ihb]

theorem validateAll_eq_ok {ns : List Node} :
    validateAll ns = .ok () ↔ ∀ n ∈ ns, n.validate = .ok () := by
  induction ns with
  | nil => simp [validateAll]
  | cons n ns ih => simp [validateAll, Except.check_bind_eq_ok, ih]

/-- A sign leaves the kind of what it can stand in front of. -/
theorem filter_of_checkSign {g : Sign} {k : Option Kind} (h : Kind.checkSign g k = .ok ()) :
    k.filter Kind.isNumeric = k := by
  cases k with
  | none => rfl
  | some k =>
    unfold Kind.checkSign at h
    simp only at h
    split at h
    · simp [Option.filter, *]
    · simp at h

/-- A tree that was built and is valid with a signature is consistent under it. -/
theorem Built.consistent (hb : Built ctx es n) (h : (n.withSignature sig).validate = .ok ()) :
    Consistent sig n (n.withSignature sig).kind? := by
  induction hb with
  | literal v => exact .literal v
  | @read e he hrole hbound =>
    refine .read fun hconst => ?_
    obtain ⟨v, hv⟩ := Option.isSome_iff_exists.1 (hbound hconst)
    simp [BuildContext.pinned, hconst, hv, Slot.ofKind]
  | logic hl hr ihl ihr =>
    simp only [withSignature, validate, Except.check_bind_eq_ok] at h
    obtain ⟨hvl, hvr, hkl, hkr⟩ := h
    exact .logic (ihl hvl) (ihr hvr) hkl hkr
  | not ha ih =>
    simp only [withSignature, validate, Except.check_bind_eq_ok] at h
    exact .not (ih h.1) h.2
  | @sign g a ha ih =>
    simp only [withSignature, validate, Except.check_bind_eq_ok] at h
    have hkind : ((Node.sign g a (.ofKind (a.kind?.filter Kind.isNumeric))).withSignature
        sig).kind? = (a.withSignature sig).kind? := by
      rw [withSignature]
      exact filter_of_checkSign h.2
    have ha' := ih h.1
    rw [hkind]
    refine .sign ha' h.2 ?_
    have hslot := ha'.atMost.filter Kind.isNumeric
    rwa [filter_of_checkSign h.2] at hslot
  | arith hl hr ihl ihr =>
    simp only [withSignature, validate, Except.check_bind_eq_ok] at h
    obtain ⟨hvl, hvr, hk⟩ := h
    have hl' := ihl hvl
    have hr' := ihr hvr
    exact .arith hl' hr' hk (hl'.atMost.static? hr'.atMost)
  | compare hl hr ihl ihr =>
    simp only [withSignature, validate, Except.check_bind_eq_ok] at h
    obtain ⟨hvl, hvr, hk⟩ := h
    exact .compare (ihl hvl) (ihr hvr) hk
  | @assign op e v he hrole hvar hop hv ih =>
    simp only [withSignature, validate, Except.check_bind_eq_ok] at h
    have hv' := ih h.1
    refine .assign hv' h.2 ?_
    unfold AssignOp.static?
    cases op.arith? with
    | none => exact hv'.atMost
    | some a => exact Kind.AtMost.refl.static? hv'.atMost
  | @call e f args he hrole hlen hf hargs ih =>
    rw [withSignature, withSignatureAll_eq_map] at h ⊢
    rw [validate, validateAll_eq_ok, List.forall_mem_map] at h
    refine .call ?_ .of_none
    rw [List.map_map, List.forall₂_map_right_iff, List.forall₂_same]
    exact fun a ha => ih a ha (h a ha)
  | sequence ha hb iha ihb =>
    simp only [withSignature, validate, Except.check_bind_eq_ok] at h
    have hb' := ihb h.2
    exact .sequence (iha h.1) hb' hb'.atMost

end Node

end Formula
