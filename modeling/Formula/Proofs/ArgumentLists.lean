import Formula.Proofs.Lineups

/-!
# Arguments are counted

The arguments in a list are one more than the commas directly inside it, or none if it is closed
at once (`Element.argumentCount`). The frame of an open call has counted the commas up to where
the machine is, and the count is made up by those that are to come (`Frame.Tells`). How many
parentheses are open inside the list matters to which commas count, and this is how many wait
above the one that opened it (`Lineup.Counted`). When the list is closed, the frame has the number
of its arguments (`Frame.Tells.argumentCount_eq`).
-/

namespace Formula

open Sorting (touched)

namespace Element

/-! ## Lists of arguments -/

/-- How many commas stand directly inside a parenthesis that was opened in front of the elements,
while `depth` more are open in it. -/
def commasInside : Nat → List Element → Nat
  | _, [] => 0
  | depth, e :: es =>
    match e.role, depth with
    | .close, 0 => 0
    | .close, depth + 1 => commasInside depth es
    | .groupOpen, depth | .callOpen, depth => commasInside (depth + 1) es
    | .comma, 0 => commasInside 0 es + 1
    | _, depth => commasInside depth es

/-- How many arguments stand in a list that was opened in front of the elements. -/
def argumentCount (es : List Element) : Nat :=
  if es.head?.any fun e => e.role == .close then 0 else commasInside 0 es + 1

variable {e : Element} {es : List Element} {d : Nat}

/-- What the first element does to the count, in one equation from which the others come. -/
theorem commasInside_cons (e : Element) (es : List Element) (d : Nat) :
    commasInside d (e :: es) =
      match e.role, d with
      | .close, 0 => 0
      | .close, depth + 1 => commasInside depth es
      | .groupOpen, depth | .callOpen, depth => commasInside (depth + 1) es
      | .comma, 0 => commasInside 0 es + 1
      | _, depth => commasInside depth es := rfl

theorem commasInside_close_zero (h : e.role = .close) : commasInside 0 (e :: es) = 0 := by
  rw [commasInside_cons, h]

theorem commasInside_close (h : e.role = .close) :
    commasInside (d + 1) (e :: es) = commasInside d es := by
  rw [commasInside_cons, h]

theorem commasInside_groupOpen (h : e.role = .groupOpen) :
    commasInside d (e :: es) = commasInside (d + 1) es := by
  rw [commasInside_cons, h]

theorem commasInside_callOpen (h : e.role = .callOpen) :
    commasInside d (e :: es) = commasInside (d + 1) es := by
  rw [commasInside_cons, h]

theorem commasInside_comma_zero (h : e.role = .comma) :
    commasInside 0 (e :: es) = commasInside 0 es + 1 := by
  rw [commasInside_cons, h]
  rfl

theorem commasInside_comma (h : e.role = .comma) :
    commasInside (d + 1) (e :: es) = commasInside (d + 1) es := by
  rw [commasInside_cons, h]
  rfl

theorem commasInside_of_isKept (h : e.role.isKept = true) :
    commasInside d (e :: es) = commasInside d es := by
  rw [commasInside_cons]
  cases hr : e.role with
  | comma | groupOpen | callOpen | close =>
    simp [hr, Role.isKept, Role.isParenthesis] at h
  | _ => rfl

end Element

open Element (commasInside argumentCount)

/-! ## What the frames have counted -/

namespace Element

theorem drop_eq_cons {es : List Element} {n : Nat} {e : Element} (he : es[n]? = some e) :
    es.drop n = e :: es.drop (n + 1) := by
  obtain ⟨hn, rfl⟩ := List.getElem?_eq_some_iff.1 he
  exact List.drop_eq_getElem_cons hn

end Element

namespace Frame

/-- The frame of a call tells of the arguments opened at `x`, when `depth` parentheses are open in
them and `n` elements have been taken in. -/
structure Tells (es : List Element) (n depth : Nat) (x : Placed) (f : Frame) : Prop where
  lt : x.position < n
  within : 0 < depth → x.position + 1 < n
  /-- The commas that are to come are missing. -/
  commas : commasInside 0 (es.drop (x.position + 1)) = f.ended + commasInside depth (es.drop n)
  /-- The list is still open. -/
  notClosed : x.position + 1 < n → ∀ o, es[x.position + 1]? = some o → o.role ≠ .close
  start : n = x.position + 1 → f = ⟨0, false⟩
  /-- Only a parenthesis that opens arguments comes unnoticed. -/
  started : x.position + 1 < n → f.ended = 0 → f.pending = false →
    ∃ o, es[x.position + 1]? = some o ∧ o.role = .callOpen

/-- Nothing has come in a list that has just been opened. -/
theorem Tells.opened (es : List Element) (n : Nat) (e : Element) :
    Tells es (n + 1) 0 ⟨n, e⟩ ⟨0, false⟩ where
  lt := Nat.lt_succ_self n
  within h := absurd h (Nat.lt_irrefl 0)
  commas := (Nat.zero_add _).symm
  notClosed h := absurd h (Nat.lt_irrefl _)
  start _ := rfl
  started h := absurd h (Nat.lt_irrefl _)

/-- One more element is taken in. -/
theorem Tells.step {es : List Element} {n d d' : Nat} {x : Placed} {f f' : Frame} {e : Element}
    (h : Tells es n d x f) (he : es[n]? = some e)
    (hcommas : f.ended + commasInside d (e :: es.drop (n + 1)) =
      f'.ended + commasInside d' (es.drop (n + 1)))
    (hclose : e.role = .close → 0 < d)
    (hf : (f' = f ∧ (0 < d ∨ e.role = .callOpen)) ∨ 0 < f'.ended ∨ f'.pending = true) :
    Tells es (n + 1) d' x f' where
  lt := Nat.lt_succ_of_lt h.lt
  within _ := Nat.succ_lt_succ h.lt
  commas := by rw [h.commas, Element.drop_eq_cons he, hcommas]
  notClosed hlt o ho hrole := by
    by_cases hn : x.position + 1 < n
    · exact h.notClosed hn o ho hrole
    · obtain rfl : n = x.position + 1 := by omega
      obtain rfl : e = o := by simpa [he] using ho
      exact hn (h.within (hclose hrole))
  start hn := absurd h.lt (by omega)
  started hlt hended hpending := by
    rcases hf with ⟨rfl, hf⟩ | hf | hf
    · by_cases hn : x.position + 1 < n
      · exact h.started hn hended hpending
      · obtain rfl : n = x.position + 1 := by omega
        exact ⟨e, he, hf.resolve_left fun hd => hn (h.within hd)⟩
    · omega
    · simp [hf] at hpending

/-- When the list is closed, its arguments have been counted. -/
theorem Tells.argumentCount_eq {es : List Element} {n : Nat} {k : Placed} {f : Frame} {e : Element}
    (h : Tells es n 0 k f) (he : es[n]? = some e) (hclose : e.role = .close)
    (hpending : 0 < f.ended → f.pending = true)
    (hfirst : ∀ o, es[k.position + 1]? = some o → k.position + 1 < n → o.role ≠ .callOpen) :
    (f.ended + if f.pending then 1 else 0) = argumentCount (es.drop (k.position + 1)) := by
  unfold argumentCount
  rw [List.head?_drop]
  rcases Nat.lt_or_eq_of_le (Nat.succ_le_of_lt h.lt) with hlt | heq
  · have hended : commasInside 0 (es.drop (k.position + 1)) = f.ended := by
      rw [h.commas, Element.drop_eq_cons he, Element.commasInside_close_zero hclose, Nat.add_zero]
    have hnot : (es[k.position + 1]?.any fun e => e.role == .close) = false := by
      cases ho : es[k.position + 1]? with
      | none => rfl
      | some o => simpa using h.notClosed hlt o ho
    have hnoticed : f.pending = true := by
      rcases Nat.eq_zero_or_pos f.ended with hzero | hpos
      · rw [← Bool.not_eq_false]
        intro hfalse
        obtain ⟨o, ho, hcall⟩ := h.started hlt hzero hfalse
        exact hfirst o ho hlt hcall
      · exact hpending hpos
    simp [hnot, hended, hnoticed]
  · have hstart := h.start heq.symm
    rw [show k.position + 1 = n from heq, he]
    simp [hstart, hclose]

end Frame

namespace Lineup

/-- The frames belong to the parentheses that wait and open arguments, and each tells of its
list. `depth` parentheses are open above the waiting elements. -/
inductive Counted (es : List Element) (n : Nat) : Nat → List Placed → List Frame → Prop
  | nil {depth : Nat} : Counted es n depth [] []
  | other {depth : Nat} {x : Placed} {w : List Placed} {fs : List Frame}
      (hx : x.role.isParenthesis = false) : Counted es n depth w fs → Counted es n depth (x :: w) fs
  | group {depth : Nat} {x : Placed} {w : List Placed} {fs : List Frame}
      (hx : x.role.isParenthesis = true) (hcall : x.role ≠ .callOpen) :
      Counted es n (depth + 1) w fs → Counted es n depth (x :: w) fs
  | call {depth : Nat} {x : Placed} {w : List Placed} {f : Frame} {fs : List Frame}
      (hx : x.role = .callOpen) (hf : Frame.Tells es n depth x f) :
      Counted es n (depth + 1) w fs → Counted es n depth (x :: w) (f :: fs)

namespace Counted

variable {es : List Element} {n n' d d' : Nat} {e : Element} {up w : List Placed} {k : Placed}
  {fs : List Frame}

theorem release (h : Counted es n d (up ++ w) fs)
    (hup : ∀ x ∈ up, x.role.isParenthesis = false) : Counted es n d w fs := by
  induction up with
  | nil => exact h
  | cons x up ih =>
    rw [List.forall_mem_cons] at hup
    cases h with
    | other hx h => exact ih h hup.2
    | group hx hcall h => simp [hup.1] at hx
    | call hx hf h =>
      have hpar := hup.1
      simp [hx, Role.isParenthesis] at hpar

/-- Frames that are left alone go on telling. -/
theorem shift (hf : ∀ i x f, Frame.Tells es n (d + i) x f → Frame.Tells es n' (d' + i) x f)
    (h : Counted es n d w fs) : Counted es n' d' w fs := by
  have hall : ∀ i, Counted es n (d + i) w fs → Counted es n' (d' + i) w fs := by
    clear h
    intro i h
    generalize hj : d + i = j at h
    induction h generalizing i with
    | nil => exact .nil
    | other hx h ih => exact .other hx (ih i hj)
    | group hx hcall h ih => exact .group hx hcall (ih (i + 1) (by omega))
    | call hx htells h ih =>
      subst hj
      exact .call hx (hf i _ _ htells) (ih (i + 1) (by omega))
  exact hall 0 h

/-- The innermost frame notes that something has come, and the others are left alone. -/
theorem touch {c : Nat}
    (htop : ∀ d x f, Frame.Tells es n d x f → Frame.Tells es n' (d + c) x ⟨f.ended, true⟩)
    (hf : ∀ d x f, Frame.Tells es n (d + 1) x f → Frame.Tells es n' (d + 1 + c) x f)
    (h : Counted es n d w fs) : Counted es n' (d + c) w (touched fs) := by
  induction h with
  | nil => exact .nil
  | other hx h ih => exact .other hx ih
  | group hx hcall h ih => exact .group hx hcall (by rwa [Nat.add_right_comm] at ih)
  | @call d x w f fs hx htells h ih =>
    refine .call hx (htop d x f htells) (h.shift fun i x f htells => ?_)
    have hi := hf (d + i) x f (by rwa [Nat.add_right_comm])
    rwa [show d + c + 1 + i = d + i + 1 + c by omega]

/-- An operand or an operator is taken in. -/
theorem kept (h : Counted es n d w fs) (he : es[n]? = some e) (hkept : e.role.isKept = true) :
    Counted es (n + 1) d w (touched fs) := by
  have hclose := (Role.ne_of_isKept hkept).2
  refine touch (c := 0) (fun d x f htells => ?_) (fun d x f htells => ?_) h
  · exact htells.step he (by rw [Element.commasInside_of_isKept hkept]; rfl) (absurd · hclose)
      (.inr (.inr rfl))
  · exact htells.step he (by rw [Element.commasInside_of_isKept hkept]) (absurd · hclose)
      (.inl ⟨rfl, .inl (Nat.succ_pos d)⟩)

theorem groupOpen (h : Counted es n d w fs) (he : es[n]? = some e) (hopen : e.role = .groupOpen) :
    Counted es (n + 1) (d + 1) w (touched fs) := by
  refine touch (fun d x f htells => ?_) (fun d x f htells => ?_) h
  · exact htells.step he (by rw [Element.commasInside_groupOpen hopen]) (by simp [hopen])
      (.inr (.inr rfl))
  · exact htells.step he (by rw [Element.commasInside_groupOpen hopen]) (by simp [hopen])
      (.inl ⟨rfl, .inl (Nat.succ_pos d)⟩)

theorem callOpen (h : Counted es n d w fs) (he : es[n]? = some e) (hopen : e.role = .callOpen) :
    Counted es (n + 1) (d + 1) w fs := by
  refine h.shift fun i x f htells => ?_
  refine htells.step he ?_ (by simp [hopen]) (.inl ⟨rfl, .inr hopen⟩)
  rw [Element.commasInside_callOpen hopen, Nat.add_right_comm]

theorem close (h : Counted es n (d + 1) w fs) (he : es[n]? = some e) (hclose : e.role = .close) :
    Counted es (n + 1) d w fs := by
  refine h.shift fun i x f htells => ?_
  refine htells.step he ?_ (fun _ => by omega) (.inl ⟨rfl, .inl (by omega)⟩)
  rw [Nat.add_right_comm, Element.commasInside_close hclose]

/-- The frame of the innermost parenthesis, if that opens arguments. -/
theorem exists_frame (h : Counted es n d (k :: w) fs) (hk : k.role = .callOpen) :
    ∃ f fs', fs = f :: fs' ∧ Frame.Tells es n d k f ∧ Counted es n (d + 1) w fs' := by
  cases h with
  | other hx h =>
    rw [hk] at hx
    simp [Role.isParenthesis] at hx
  | group hx hcall h => exact absurd hk hcall
  | call hx htells h => exact ⟨_, _, rfl, htells, h⟩

/-- A comma is taken in, which ends an argument of the innermost parenthesis. -/
theorem comma {f : Frame} (h : Counted es n 0 (k :: w) (f :: fs)) (hk : k.role = .callOpen)
    (he : es[n]? = some e) (hcomma : e.role = .comma) :
    Counted es (n + 1) 0 (k :: w) (⟨f.ended + 1, false⟩ :: fs) := by
  obtain ⟨f', fs', hframes, htells, hw⟩ := h.exists_frame hk
  obtain ⟨rfl, rfl⟩ := List.cons.inj hframes
  refine .call hk ?_ (hw.shift fun i x f htells => ?_)
  · refine htells.step he ?_ (by simp [hcomma]) (.inr (.inl (Nat.succ_pos _)))
    rw [Element.commasInside_comma_zero hcomma, Nat.add_right_comm]
    rfl
  · refine htells.step he ?_ (by simp [hcomma]) (.inl ⟨rfl, .inl (by omega)⟩)
    rw [Nat.zero_add, Nat.add_comm 1 i, Element.commasInside_comma hcomma]

end Counted

end Lineup

end Formula
