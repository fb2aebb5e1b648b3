import Formula.Proofs.Results
import Formula.Proofs.Sorting

/-!
# Elements with their positions

Two elements may be equal, so what becomes of each of them on the way to postfix order is said of
elements with their positions (`Placed`). The machine is followed with them : what one step does,
if it comes to anything, is to release waiting elements to the output and then to take the new
element in, in one of seven ways (`Lineup.exists_takes`).

The waiting elements are in the order of their positions (`Lineup.Waiting`). A parenthesis that
opens arguments therefore has the element right in front of it below it for as long as it waits,
and the two leave together.
-/

namespace Formula

open Sorting (touched)

/-- Whether elements of the role have a place in postfix order. -/
def Role.isKept (r : Role) : Bool := !r.isParenthesis && r != .comma

theorem Role.ne_of_isKept {r : Role} (h : r.isKept = true) : r ≠ .callOpen ∧ r ≠ .close := by
  constructor <;> rintro rfl <;> simp [isKept, isParenthesis] at h

theorem Role.isKept_of_isValue {r : Role} (h : r.isValue = true) : r.isKept = true := by
  cases r <;> first
    | rfl
    | simp [isValue] at h

/-- An element and a position, counted from zero. -/
structure Placed where
  position : Nat
  element : Element

/-- The role of the element. -/
abbrev Placed.role (x : Placed) : Role := x.element.role

/-! ## The machine with positions -/

/-- Elements with positions on their way to postfix order. -/
structure Lineup where
  /-- The elements in order, the latest first. -/
  output : List Placed
  /-- The elements that wait, the latest first. -/
  waiting : List Placed
  /-- The open calls, the innermost first. -/
  calls : List Frame

namespace Lineup

/-- The state without the positions. -/
def sorting (s : Lineup) : Sorting :=
  ⟨s.output.map (·.element), s.waiting.map (·.element), s.calls⟩

/-- Waiting elements above every parenthesis go to the output. -/
inductive Releases : Lineup → Lineup → Prop
  | intro {o up w : List Placed} {fs : List Frame}
      (hup : ∀ x ∈ up, x.role.isParenthesis = false) :
      Releases ⟨o, up ++ w, fs⟩ ⟨up.reverse ++ o, w, fs⟩

theorem Releases.refl (s : Lineup) : s.Releases s :=
  @Releases.intro _ [] _ _ (by simp)

/-- What taking in the element at the position `n` comes to, once waiting elements have been
released. -/
inductive Takes (n : Nat) (e : Element) : Lineup → Lineup → Prop
  | value {o w : List Placed} {fs : List Frame} (he : e.role.isValue = true) :
      Takes n e ⟨o, w, fs⟩ ⟨⟨n, e⟩ :: o, w, touched fs⟩
  | waits {o w : List Placed} {fs : List Frame} (he : e.role.isKept = true)
      (hvalue : e.role.isValue = false) : Takes n e ⟨o, w, fs⟩ ⟨o, ⟨n, e⟩ :: w, touched fs⟩
  | groupOpen {o w : List Placed} {fs : List Frame} (he : e.role = .groupOpen) :
      Takes n e ⟨o, w, fs⟩ ⟨o, ⟨n, e⟩ :: w, touched fs⟩
  | callOpen {o w : List Placed} {fs : List Frame} (he : e.role = .callOpen) :
      Takes n e ⟨o, w, fs⟩ ⟨o, ⟨n, e⟩ :: w, ⟨0, false⟩ :: fs⟩
  | comma {o w : List Placed} {k : Placed} {f : Frame} {fs : List Frame} (he : e.role = .comma)
      (hk : k.role = .callOpen) :
      Takes n e ⟨o, k :: w, f :: fs⟩ ⟨o, k :: w, ⟨f.ended + 1, false⟩ :: fs⟩
  | closeGroup {o w : List Placed} {k : Placed} {fs : List Frame} (he : e.role = .close)
      (hk : k.role.isParenthesis = true) (hcall : k.role ≠ .callOpen) :
      Takes n e ⟨o, k :: w, fs⟩ ⟨o, w, fs⟩
  | closeCall {o w : List Placed} {k f : Placed} {frame : Frame} {fs fs' : List Frame}
      (he : e.role = .close) (hk : k.role = .callOpen) (hf : f.role = .function)
      (hframe : fs.head?.getD ⟨0, false⟩ = frame) (hfs : fs.tail = fs')
      (hpending : 0 < frame.ended → frame.pending = true) :
      Takes n e ⟨o, k :: f :: w, fs⟩
        ⟨⟨f.position, { f.element with argc := frame.ended + if frame.pending then 1 else 0 }⟩ :: o,
          w, fs'⟩

theorem sorting_push (s : Lineup) (n : Nat) (e : Element) :
    sorting ⟨s.output, ⟨n, e⟩ :: s.waiting, touched s.calls⟩ = s.sorting.touch.push e := by
  rw [Sorting.touch_eq]
  rfl

theorem sorting_emit (s : Lineup) (n : Nat) (e : Element) :
    sorting ⟨⟨n, e⟩ :: s.output, s.waiting, touched s.calls⟩ = s.sorting.touch.emit e := by
  rw [Sorting.touch_eq]
  rfl

variable {n : Nat} {e : Element} {s : Lineup}

theorem exists_releases {p : Element → Bool}
    (hp : ∀ e, p e = true → e.role.isParenthesis = false) (s : Lineup) :
    ∃ t, s.Releases t ∧ t.sorting = s.sorting.release p ∧
      ∀ x, t.waiting.head? = some x → p x.element = false := by
  obtain ⟨o, w, fs⟩ := s
  have hup : ∀ x ∈ w.takeWhile (fun x => p x.element), x.role.isParenthesis = false :=
    fun x hx => hp _ (List.mem_takeWhile_imp (p := fun x : Placed => p x.element) hx)
  refine ⟨⟨(w.takeWhile fun x => p x.element).reverse ++ o, w.dropWhile fun x => p x.element, fs⟩,
    ?_, ?_, ?_⟩
  · have h := @Releases.intro o _ (w.dropWhile fun x => p x.element) fs hup
    rwa [List.takeWhile_append_dropWhile] at h
  · simp [sorting, Sorting.release, List.takeWhile_map, List.dropWhile_map, Function.comp_def]
  · intro x hx
    have h := List.head?_dropWhile_not (fun x : Placed => p x.element) w
    rw [hx] at h
    exact h

theorem inside_parenthesis {e : Element} (h : Sorting.inside e = true) :
    e.role.isParenthesis = false := by
  simpa [Sorting.inside] using h

/-- A comma comes in the arguments of a call. -/
theorem exists_takes_comma {t : Sorting} (he : e.role = .comma)
    (h : s.sorting.comma e = .ok t) :
    ∃ u v, s.Releases u ∧ Takes n e u v ∧ v.sorting = t := by
  obtain ⟨⟨o, w, fs⟩, hu, hsorting, -⟩ := exists_releases (fun _ => inside_parenthesis) s
  unfold Sorting.comma at h
  simp only [← hsorting] at h
  cases w with
  | nil => simp [sorting] at h
  | cons k w =>
    cases fs with
    | nil => simp [sorting] at h
    | cons f fs =>
      simp only [sorting, List.map_cons] at h
      split at h
      · rename_i hk
        split at h
        · obtain rfl := Except.ok.inj h
          exact ⟨_, _, hu, .comma he hk, rfl⟩
        · simp at h
      · simp at h

/-- A closing parenthesis closes the innermost open one. -/
theorem exists_takes_close {t : Sorting} (he : e.role = .close)
    (h : s.sorting.close e = .ok t) :
    ∃ u v, s.Releases u ∧ Takes n e u v ∧ v.sorting = t := by
  obtain ⟨⟨o, w, fs⟩, hu, hsorting, hhead⟩ := exists_releases (fun _ => inside_parenthesis) s
  unfold Sorting.close at h
  simp only [← hsorting] at h
  cases w with
  | nil => simp [sorting] at h
  | cons k w =>
    have hk : k.role.isParenthesis = true := by simpa [Sorting.inside] using hhead k rfl
    simp only [sorting, List.map_cons] at h
    split at h
    · rename_i hcall
      unfold Sorting.closeCall at h
      simp only at h
      split at h
      · simp at h
      · rename_i hpending
        cases w with
        | nil => simp at h
        | cons f w =>
          simp only [List.map_cons] at h
          split at h
          · rename_i hf
            obtain rfl := Except.ok.inj h
            exact ⟨_, _, hu, .closeCall he hcall hf rfl rfl (by simpa using hpending), rfl⟩
          · simp at h
    · rename_i hcall
      obtain rfl := Except.ok.inj h
      exact ⟨_, _, hu, .closeGroup he hk hcall, rfl⟩

/-- An operator waits once those that bind more tightly have been released. -/
theorem exists_takes_operator (hkept : e.role.isKept = true) (hvalue : e.role.isValue = false) :
    ∃ u v, s.Releases u ∧ Takes n e u v ∧
      v.sorting = (s.sorting.touch.release (Sorting.yields e.role)).push e := by
  obtain ⟨⟨o, w, fs⟩, hu, hsorting, -⟩ :=
    exists_releases (p := Sorting.yields e.role) (fun _ h => (Sorting.yields_iff.1 h).1) s
  refine ⟨_, _, hu, .waits hkept hvalue, ?_⟩
  simp only [sorting, Sorting.release, Sorting.mk.injEq] at hsorting
  obtain ⟨ho, hw, rfl⟩ := hsorting
  rw [Sorting.touch_eq]
  simp [sorting, Sorting.release, Sorting.push, ho, hw]

/-- Taking in one element, if it comes to anything, releases waiting elements and then takes it.
Nothing is released in front of a parenthesis that opens arguments. -/
theorem exists_takes {t : Sorting} (n : Nat) (h : s.sorting.step e = .ok t) :
    ∃ u v, s.Releases u ∧ (e.role = .callOpen → u = s) ∧ Takes n e u v ∧ v.sorting = t := by
  have hoperator : e.role.isKept = true → e.role.isValue = false → e.role ≠ .callOpen →
      (s.sorting.touch.release (Sorting.yields e.role)).push e = t →
        ∃ u v, s.Releases u ∧ (e.role = .callOpen → u = s) ∧ Takes n e u v ∧ v.sorting = t := by
    rintro hkept hvalue hopen rfl
    obtain ⟨u, v, hu, htakes, hv⟩ := exists_takes_operator (s := s) (n := n) hkept hvalue
    exact ⟨u, v, hu, fun h => absurd h hopen, htakes, hv⟩
  unfold Sorting.step at h
  cases hr : e.role with
  | comma =>
    rw [hr] at h
    obtain ⟨u, v, hu, htakes, hv⟩ := exists_takes_comma hr h
    exact ⟨u, v, hu, by simp, htakes, hv⟩
  | close =>
    rw [hr] at h
    obtain ⟨u, v, hu, htakes, hv⟩ := exists_takes_close hr h
    exact ⟨u, v, hu, by simp, htakes, hv⟩
  | callOpen =>
    rw [hr] at h
    exact ⟨s, _, .refl s, fun _ => rfl, .callOpen hr, Except.ok.inj h⟩
  | groupOpen =>
    rw [hr] at h
    exact ⟨s, _, .refl s, by simp, .groupOpen hr, (sorting_push ..).trans (Except.ok.inj h)⟩
  | function =>
    rw [hr] at h
    exact ⟨s, _, .refl s, by simp, .waits (by rw [hr]; rfl) (by rw [hr]; rfl),
      (sorting_push ..).trans (Except.ok.inj h)⟩
  | literal k =>
    rw [hr] at h
    exact ⟨s, _, .refl s, by simp, .value (by rw [hr]; rfl),
      (sorting_emit ..).trans (Except.ok.inj h)⟩
  | name =>
    rw [hr] at h
    exact ⟨s, _, .refl s, by simp, .value (by rw [hr]; rfl),
      (sorting_emit ..).trans (Except.ok.inj h)⟩
  | _ =>
    rw [hr] at h hoperator
    exact hoperator rfl rfl (by simp) (Except.ok.inj h)

/-! ## The elements that wait -/

/-- What holds of the elements that wait when `n` elements have been taken in. -/
structure Waiting (es : List Element) (n : Nat) (w : List Placed) : Prop where
  source : ∀ x ∈ w, x.position < n ∧ es[x.position]? = some x.element
  role : ∀ x ∈ w, x.role.isValue = false ∧ x.role ≠ .comma ∧ x.role ≠ .close
  sorted : w.Pairwise fun x y => y.position < x.position
  /-- A parenthesis that opens arguments waits as long as the element right in front of it. -/
  next : ∀ x ∈ w, ∀ o, es[x.position + 1]? = some o → o.role = .callOpen →
    x.position + 1 < n → ⟨x.position + 1, o⟩ ∈ w

namespace Waiting

variable {es : List Element} {n : Nat} {e : Element} {up w : List Placed} {k f : Placed}

theorem nil : Waiting es n [] := ⟨by simp, by simp, .nil, by simp⟩

/-- An element that does not open arguments is taken in, and nothing waits longer. -/
theorem skip (h : Waiting es n w) (he : es[n]? = some e) (hopen : e.role ≠ .callOpen) :
    Waiting es (n + 1) w where
  source x hx := ⟨Nat.lt_succ_of_lt (h.source x hx).1, (h.source x hx).2⟩
  role := h.role
  sorted := h.sorted
  next x hx o ho hcall hlt := by
    refine h.next x hx o ho hcall (Nat.lt_of_le_of_ne (Nat.le_of_lt_succ hlt) ?_)
    rintro rfl
    obtain rfl : e = o := by simpa [he] using ho
    exact hopen hcall

/-- The element that is taken in waits. -/
theorem push (h : Waiting es n w) (he : es[n]? = some e)
    (hrole : e.role.isValue = false ∧ e.role ≠ .comma ∧ e.role ≠ .close) :
    Waiting es (n + 1) (⟨n, e⟩ :: w) where
  source := List.forall_mem_cons.2 ⟨⟨Nat.lt_succ_self n, he⟩,
    fun x hx => ⟨Nat.lt_succ_of_lt (h.source x hx).1, (h.source x hx).2⟩⟩
  role := List.forall_mem_cons.2 ⟨hrole, h.role⟩
  sorted := List.pairwise_cons.2 ⟨fun x hx => (h.source x hx).1, h.sorted⟩
  next := by
    refine List.forall_mem_cons.2 ⟨fun o ho hcall hlt => absurd hlt (Nat.lt_irrefl _), ?_⟩
    intro x hx o ho hcall hlt
    rcases Nat.lt_or_eq_of_le (Nat.le_of_lt_succ hlt) with hlt | rfl
    · exact List.mem_cons_of_mem _ (h.next x hx o ho hcall hlt)
    · obtain rfl : e = o := by simpa [he] using ho
      exact List.mem_cons_self

theorem not_mem_of_callOpen {x : Placed} (hup : ∀ x ∈ up, x.role.isParenthesis = false)
    (hx : x.role = .callOpen) : x ∉ up := by
  intro hmem
  have hpar := hup x hmem
  rw [hx] at hpar
  simp [Role.isParenthesis] at hpar

/-- What is released does not take a parenthesis along. -/
theorem release (h : Waiting es n (up ++ w))
    (hup : ∀ x ∈ up, x.role.isParenthesis = false) : Waiting es n w where
  source x hx := h.source x (List.mem_append_right _ hx)
  role x hx := h.role x (List.mem_append_right _ hx)
  sorted := (List.pairwise_append.1 h.sorted).2.1
  next x hx o ho hcall hlt := by
    rcases List.mem_append.1 (h.next x (List.mem_append_right _ hx) o ho hcall hlt) with ho | ho
    · exact absurd ho (not_mem_of_callOpen hup hcall)
    · exact ho

/-- What is released has no arguments opened right behind it. -/
theorem not_followed (h : Waiting es n (up ++ w))
    (hup : ∀ x ∈ up, x.role.isParenthesis = false)
    (hn : ∀ o, es[n]? = some o → o.role ≠ .callOpen) :
    ∀ x ∈ up, ∀ o, es[x.position + 1]? = some o → o.role ≠ .callOpen := by
  intro x hx o ho hcall
  have hxw : x ∈ up ++ w := List.mem_append_left _ hx
  rcases Nat.lt_or_eq_of_le (Nat.succ_le_of_lt (h.source x hxw).1) with hlt | heq
  · rcases List.mem_append.1 (h.next x hxw o ho hcall hlt) with hmem | hmem
    · exact not_mem_of_callOpen hup hcall hmem
    · have hless := (List.pairwise_append.1 h.sorted).2.2 x hx _ hmem
      exact absurd hless (by simp)
  · exact hn o (heq ▸ ho) hcall

theorem closeGroup (h : Waiting es n (k :: w)) (hk : k.role ≠ .callOpen) : Waiting es n w where
  source x hx := h.source x (List.mem_cons_of_mem _ hx)
  role x hx := h.role x (List.mem_cons_of_mem _ hx)
  sorted := h.sorted.of_cons
  next x hx o ho hcall hlt := by
    rcases List.mem_cons.1 (h.next x (List.mem_cons_of_mem _ hx) o ho hcall hlt) with rfl | ho
    · exact absurd hcall hk
    · exact ho

/-- The parenthesis of a call closes together with what waits right below it. -/
theorem closeCall (h : Waiting es n (k :: f :: w)) (hf : f.role ≠ .callOpen) :
    Waiting es n w where
  source x hx := h.source x (by simp [hx])
  role x hx := h.role x (by simp [hx])
  sorted := h.sorted.of_cons.of_cons
  next x hx o ho hcall hlt := by
    have hsorted := h.sorted
    rw [List.pairwise_cons, List.pairwise_cons] at hsorted
    have hxf : x.position < f.position := hsorted.2.1 x hx
    have hfk : f.position < k.position := hsorted.1 f List.mem_cons_self
    have hmem := h.next x (by simp [hx]) o ho hcall hlt
    simp only [List.mem_cons] at hmem
    rcases hmem with rfl | rfl | hmem
    · exact absurd hfk (by simp; omega)
    · exact absurd hcall hf
    · exact hmem

/-- The parenthesis opens arguments right behind the element below it, if any are opened there. -/
theorem position_eq (h : Waiting es n (k :: f :: w)) {o : Element}
    (ho : es[f.position + 1]? = some o) (hcall : o.role = .callOpen) :
    k.position = f.position + 1 := by
  have hsorted := h.sorted
  rw [List.pairwise_cons, List.pairwise_cons] at hsorted
  have hfk : f.position < k.position := hsorted.1 f List.mem_cons_self
  have hkn : k.position < n := (h.source k List.mem_cons_self).1
  have hmem := h.next f (by simp) o ho hcall (by omega)
  simp only [List.mem_cons] at hmem
  rcases hmem with rfl | heq | hmem
  · rfl
  · exact absurd (congrArg Placed.position heq) (by simp)
  · exact absurd (hsorted.2.1 _ hmem) (by simp)

/-- What waits on top of a parenthesis that opens arguments is nothing that opens arguments right
behind it. -/
theorem not_opened (h : Waiting es n (k :: w)) :
    ∀ o, es[k.position + 1]? = some o → k.position + 1 < n → o.role ≠ .callOpen := by
  intro o ho hlt hcall
  have hsorted := List.pairwise_cons.1 h.sorted
  rcases List.mem_cons.1 (h.next k List.mem_cons_self o ho hcall hlt) with heq | hmem
  · exact absurd (congrArg Placed.position heq) (by simp)
  · exact absurd (hsorted.1 _ hmem) (by simp)

end Waiting

end Lineup

end Formula
