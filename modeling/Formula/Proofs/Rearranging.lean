import Formula.Proofs.ArgumentLists
import Mathlib.Data.List.Perm.Basic

/-!
# Postfix order loses nothing

Elements in any order, also such that no text comes to, are only rearranged if they can be put
into postfix order (`Element.rearranges_toPostfix`). Each of them but the commas and the
parentheses is there once, and all that may have changed is the number of arguments of a
function. What comes behind a literal or a variable stays behind it. A function with a list of
arguments right behind it counts these.

What carries this is an invariant of the machine (`Lineup.Invariant`) : the positions of the output
and of the waiting elements are those that have been passed, and nothing in the output but a
literal or a variable has been overtaken.
-/

namespace Formula

namespace Element

/-- The positions below `n` of elements that have a place in postfix order. -/
def keptBelow (es : List Element) (n : Nat) : List Nat :=
  (List.range n).filter fun i => es[i]?.any fun e => e.role.isKept

theorem keptBelow_succ_of_isKept {es : List Element} {n : Nat} {e : Element}
    (he : es[n]? = some e) (hkept : e.role.isKept = true) :
    keptBelow es (n + 1) = keptBelow es n ++ [n] := by
  simp [keptBelow, List.range_succ, he, hkept]

theorem keptBelow_succ {es : List Element} {n : Nat} {e : Element} (he : es[n]? = some e)
    (hkept : e.role.isKept = false) : keptBelow es (n + 1) = keptBelow es n := by
  simp [keptBelow, List.range_succ, he, hkept]

/-- The second element is the first one, but for the number of arguments of a function. -/
structure Becomes (e x : Element) : Prop where
  token : x.token = e.token
  role : x.role = e.role
  argc : e.role ≠ .function → x.argc = e.argc

theorem Becomes.refl (e : Element) : e.Becomes e := ⟨rfl, rfl, fun _ => rfl⟩

/-! ## What rearranging means -/

/-- The element is one of `es`, and if it is a function with a list of arguments right behind it,
it counts these. -/
structure Settled (es : List Element) (x : Placed) : Prop where
  source : ∃ e, es[x.position]? = some e ∧ e.Becomes x.element
  argc : x.role = .function → ∀ o, es[x.position + 1]? = some o → o.role = .callOpen →
    x.element.argc = argumentCount (es.drop (x.position + 2))

/-- A function counts the arguments of the list that is opened behind it at a position. -/
structure Counts (es : List Element) (opened : Nat) (x : Placed) : Prop where
  role : x.role = .function
  lt : x.position < opened
  argc : x.element.argc = argumentCount (es.drop (opened + 1))

/-- The elements with their positions in `es`, in another order. -/
structure Rearranges (es : List Element) (placed : List Placed) : Prop where
  /-- All but the commas and the parentheses are there, each once. -/
  positions : (placed.map (·.position)).Perm (keptBelow es es.length)
  settled : ∀ x ∈ placed, Settled es x
  /-- What comes behind a literal or a variable stays behind it. -/
  order : ∀ (i j : Nat) (x y : Placed), placed[i]? = some x → placed[j]? = some y →
    x.role.isValue = true → x.position < y.position → i < j
  /-- Every list of arguments is counted. -/
  lists : ∀ k o, es[k]? = some o → o.role = .callOpen → ∃ x ∈ placed, Counts es k x

end Element

open Element (Settled Counts Rearranges keptBelow)
open Sorting (touched)

/-! ## The invariant -/

/-- What holds when `n` elements have been taken in. -/
structure Lineup.Invariant (es : List Element) (n : Nat) (s : Lineup) : Prop where
  waiting : Waiting es n s.waiting
  counted : Counted es n 0 s.waiting s.calls
  positions : ((s.output ++ s.waiting.filter fun x => x.role.isKept).map (·.position)).Perm
    (keptBelow es n)
  /-- A literal or a variable is in the output behind nothing that came later. -/
  order : s.output.Pairwise fun y x => y.role.isValue = true → x.position < y.position
  settled : ∀ x ∈ s.output, Settled es x
  /-- A list of arguments is open, or it is counted. -/
  lists : ∀ k < n, ∀ o, es[k]? = some o → o.role = .callOpen →
    (∃ x ∈ s.waiting, x.position = k) ∨ ∃ x ∈ s.output, Counts es k x

namespace Lineup.Invariant

variable {es : List Element} {n : Nat} {e : Element} {s t : Lineup}

theorem empty (es : List Element) : Invariant es 0 ⟨[], [], []⟩ :=
  ⟨.nil, .nil, by simp [keptBelow], .nil, by simp, by simp⟩

theorem lt (h : Invariant es n s) : ∀ x ∈ s.output, x.position < n := by
  intro x hx
  have hmem := h.positions.mem_iff.1
    (List.mem_map_of_mem (f := (·.position)) (List.mem_append_left _ hx))
  exact List.mem_range.1 (List.mem_filter.1 hmem).1

/-- What goes to the output has a place in postfix order. -/
theorem isKept (h : Invariant es n s) : ∀ x ∈ s.output, x.role.isKept = true := by
  intro x hx
  have hmem := h.positions.mem_iff.1
    (List.mem_map_of_mem (f := (·.position)) (List.mem_append_left _ hx))
  obtain ⟨e, he, hbecomes⟩ := (h.settled x hx).source
  have hkept := (List.mem_filter.1 hmem).2
  rw [he] at hkept
  rw [Placed.role, hbecomes.role]
  exact hkept

theorem release (h : Invariant es n s) (ht : s.Releases t)
    (hn : ∀ o, es[n]? = some o → o.role ≠ .callOpen) : Invariant es n t := by
  cases ht with
  | @intro o up w fs hup =>
    have hw := h.waiting
    have hkept : up.filter (fun x => x.role.isKept) = up := by
      refine List.filter_eq_self.2 fun x hx => ?_
      have hcomma := (hw.role x (List.mem_append_left _ hx)).2.1
      simpa [Role.isKept, hup x hx] using hcomma
    refine ⟨hw.release hup, h.counted.release hup, ?_, ?_, ?_, ?_⟩
    · refine List.Perm.trans (List.Perm.map _ ?_) h.positions
      simp only [List.filter_append, hkept, ← List.append_assoc]
      exact (((List.reverse_perm up).append_right o).trans List.perm_append_comm).append_right _
    · refine List.pairwise_append.2 ⟨?_, h.order, ?_⟩
      · refine List.pairwise_of_forall_mem_list fun y hy x hx hvalue => ?_
        have hnot := (hw.role y (by simp [List.mem_reverse.1 hy])).1
        simp [hnot] at hvalue
      · intro y hy x hx hvalue
        have hnot := (hw.role y (by simp [List.mem_reverse.1 hy])).1
        simp [hnot] at hvalue
    · intro x hx
      rcases List.mem_append.1 hx with hx | hx
      · rw [List.mem_reverse] at hx
        have hsource := (hw.source x (List.mem_append_left _ hx)).2
        exact ⟨⟨_, hsource, .refl _⟩,
          fun _ o ho hcall => absurd hcall (hw.not_followed hup hn x hx o ho)⟩
      · exact h.settled x hx
    · intro k hk o ho hcall
      rcases h.lists k hk o ho hcall with ⟨x, hx, rfl⟩ | ⟨x, hx, hcounts⟩
      · refine .inl ⟨x, ?_, rfl⟩
        have hxo : x.element = o := by simpa [(hw.source x hx).2] using ho
        refine (List.mem_append.1 hx).resolve_left (Waiting.not_mem_of_callOpen hup ?_)
        rw [Placed.role, hxo, hcall]
      · exact .inr ⟨x, List.mem_append_right _ hx, hcounts⟩

/-- One more position, of an element that is kept. -/
theorem positions_add {l l' : List Placed} (he : es[n]? = some e) (hkept : e.role.isKept = true)
    (hl : (l.map (·.position)).Perm (keptBelow es n)) (hl' : l'.Perm (⟨n, e⟩ :: l)) :
    (l'.map (·.position)).Perm (keptBelow es (n + 1)) := by
  rw [Element.keptBelow_succ_of_isKept he hkept]
  have hn : (l'.map (·.position)).Perm (n :: l.map (·.position)) := hl'.map _
  exact hn.trans ((List.perm_append_singleton n _).symm.trans (hl.append_right [n]))

/-- One more element, which does not open arguments. -/
theorem lists_skip {p : Nat → Prop} (he : es[n]? = some e) (hopen : e.role ≠ .callOpen)
    (h : ∀ k < n, ∀ o, es[k]? = some o → o.role = .callOpen → p k) :
    ∀ k < n + 1, ∀ o, es[k]? = some o → o.role = .callOpen → p k := by
  intro k hk o ho hcall
  rcases Nat.lt_or_eq_of_le (Nat.le_of_lt_succ hk) with hk | rfl
  · exact h k hk o ho hcall
  · obtain rfl : e = o := by simpa [he] using ho
    exact absurd hcall hopen

/-- An operand goes to the output. -/
theorem value {o w : List Placed} {fs : List Frame} (h : Invariant es n ⟨o, w, fs⟩)
    (he : es[n]? = some e) (hvalue : e.role.isValue = true) :
    Invariant es (n + 1) ⟨⟨n, e⟩ :: o, w, touched fs⟩ := by
  have hkept := Role.isKept_of_isValue hvalue
  have hopen := (Role.ne_of_isKept hkept).1
  refine ⟨h.waiting.skip he hopen, h.counted.kept he hkept,
    positions_add he hkept h.positions (.refl _), ?_, ?_, ?_⟩
  · exact List.pairwise_cons.2 ⟨fun x hx _ => h.lt x hx, h.order⟩
  · refine List.forall_mem_cons.2 ⟨⟨⟨e, he, .refl e⟩, fun hf => ?_⟩, h.settled⟩
    have hfunction : e.role = .function := hf
    rw [hfunction] at hvalue
    simp [Role.isValue] at hvalue
  · refine lists_skip he hopen fun k hk o ho hcall => (h.lists k hk o ho hcall).imp_right ?_
    rintro ⟨x, hx, hcounts⟩
    exact ⟨x, List.mem_cons_of_mem _ hx, hcounts⟩

/-- The element waits. -/
theorem push {o w : List Placed} {fs fs' : List Frame} (h : Invariant es n ⟨o, w, fs⟩)
    (he : es[n]? = some e) (hrole : e.role.isValue = false ∧ e.role ≠ .comma ∧ e.role ≠ .close)
    (hcounted : Counted es (n + 1) 0 (⟨n, e⟩ :: w) fs') :
    Invariant es (n + 1) ⟨o, ⟨n, e⟩ :: w, fs'⟩ := by
  refine ⟨h.waiting.push he hrole, hcounted, ?_, h.order, h.settled, ?_⟩
  · cases hkept : e.role.isKept with
    | true =>
      refine positions_add he hkept h.positions ?_
      simp only [List.filter_cons, hkept, if_true]
      exact List.perm_middle
    | false =>
      rw [Element.keptBelow_succ he hkept]
      simpa only [List.filter_cons, hkept, Bool.false_eq_true, if_false] using h.positions
  · intro k hk o' ho hcall
    rcases Nat.lt_or_eq_of_le (Nat.le_of_lt_succ hk) with hk | rfl
    · refine (h.lists k hk o' ho hcall).imp_left ?_
      rintro ⟨x, hx, hposition⟩
      exact ⟨x, List.mem_cons_of_mem _ hx, hposition⟩
    · exact .inl ⟨_, List.mem_cons_self, rfl⟩

theorem comma {o w : List Placed} {k : Placed} {f : Frame} {fs : List Frame}
    (h : Invariant es n ⟨o, k :: w, f :: fs⟩) (he : es[n]? = some e) (hcomma : e.role = .comma)
    (hk : k.role = .callOpen) :
    Invariant es (n + 1) ⟨o, k :: w, ⟨f.ended + 1, false⟩ :: fs⟩ := by
  have hopen : e.role ≠ .callOpen := by simp [hcomma]
  refine ⟨h.waiting.skip he hopen, h.counted.comma hk he hcomma, ?_, h.order, h.settled,
    lists_skip he hopen h.lists⟩
  rw [Element.keptBelow_succ he (by rw [hcomma]; rfl)]
  exact h.positions

theorem closeGroup {o w : List Placed} {k : Placed} {fs : List Frame}
    (h : Invariant es n ⟨o, k :: w, fs⟩) (he : es[n]? = some e) (hclose : e.role = .close)
    (hk : k.role.isParenthesis = true) (hcall : k.role ≠ .callOpen) :
    Invariant es (n + 1) ⟨o, w, fs⟩ := by
  have hopen : e.role ≠ .callOpen := by simp [hclose]
  have hcounted : Counted es n 1 w fs := by
    have hc := h.counted
    cases hc with
    | other hx hc => simp [hk] at hx
    | group hx hcall hc => exact hc
    | call hx htells hc => exact absurd hx hcall
  refine ⟨(h.waiting.closeGroup hcall).skip he hopen, hcounted.close he hclose, ?_, h.order,
    h.settled, lists_skip he hopen fun i hi o' ho hrole => ?_⟩
  · rw [Element.keptBelow_succ he (by rw [hclose]; rfl)]
    have hpositions := h.positions
    rwa [List.filter_cons_of_neg (by simp [Role.isKept, hk])] at hpositions
  · rcases h.lists i hi o' ho hrole with ⟨x, hx, rfl⟩ | hout
    · refine .inl ⟨x, (List.mem_cons.1 hx).resolve_left ?_, rfl⟩
      rintro rfl
      have hxo : x.element = o' := by simpa [(h.waiting.source x hx).2] using ho
      exact hcall (by rw [Placed.role, hxo, hrole])
    · exact .inr hout

/-- The function of a call goes to the output, with the number of its arguments. -/
theorem closeCall {o w : List Placed} {k f : Placed} {frame : Frame} {fs : List Frame}
    (h : Invariant es n ⟨o, k :: f :: w, frame :: fs⟩) (he : es[n]? = some e)
    (hclose : e.role = .close) (hk : k.role = .callOpen) (hf : f.role = .function)
    (hpending : 0 < frame.ended → frame.pending = true) :
    Invariant es (n + 1)
      ⟨⟨f.position, { f.element with argc := frame.ended + if frame.pending then 1 else 0 }⟩ :: o,
        w, fs⟩ := by
  have hw := h.waiting
  have hopen : e.role ≠ .callOpen := by simp [hclose]
  have hfopen : f.role ≠ .callOpen := by simp [hf]
  have hfk : f.position < k.position := (List.pairwise_cons.1 hw.sorted).1 f List.mem_cons_self
  obtain ⟨frame', fs', hframe, htells, hcounted⟩ := h.counted.exists_frame hk
  obtain ⟨rfl, rfl⟩ := List.cons.inj hframe
  have hcounted : Counted es n 1 w fs :=
    Counted.release (show Counted es n 1 ([f] ++ w) fs from hcounted)
      (by simp [hf, Role.isParenthesis])
  have hargc := htells.argumentCount_eq he hclose hpending fun o' ho hlt => hw.not_opened o' ho hlt
  refine ⟨(hw.closeCall hfopen).skip he hopen, hcounted.close he hclose, ?_, ?_, ?_, ?_⟩
  · have hpositions := h.positions
    rw [List.filter_cons_of_neg (by simp [Role.isKept, Role.isParenthesis, hk]),
      List.filter_cons_of_pos (by rw [hf]; rfl)] at hpositions
    rw [Element.keptBelow_succ he (by rw [hclose]; rfl)]
    refine List.Perm.trans ?_ hpositions
    simpa using List.perm_middle.symm
  · refine List.pairwise_cons.2 ⟨fun x hx hvalue => ?_, h.order⟩
    have hfunction : f.role.isValue = true := hvalue
    simp [hf, Role.isValue] at hfunction
  · refine List.forall_mem_cons.2 ⟨⟨⟨f.element, (hw.source f (by simp)).2, rfl, rfl, ?_⟩, ?_⟩,
      h.settled⟩
    · exact fun hne => absurd hf hne
    · intro _ o' ho hcall
      simpa only [hw.position_eq ho hcall] using hargc
  · refine lists_skip he hopen fun i hi o' ho hcall => ?_
    rcases h.lists i hi o' ho hcall with ⟨x, hx, rfl⟩ | ⟨x, hx, hcounts⟩
    · simp only [List.mem_cons] at hx
      rcases hx with rfl | rfl | hx
      · exact .inr ⟨_, List.mem_cons_self, hf, hfk, hargc⟩
      · have hxo : x.element = o' := by simpa [(hw.source x (by simp)).2] using ho
        exact absurd (by rw [Placed.role, hxo, hcall]) hfopen
      · exact .inl ⟨x, hx, rfl⟩
    · exact .inr ⟨x, List.mem_cons_of_mem _ hx, hcounts⟩

/-- Taking in one element, once waiting elements have been released. -/
theorem takes (h : Invariant es n s) (he : es[n]? = some e) (ht : Takes n e s t) :
    Invariant es (n + 1) t := by
  cases ht with
  | value hvalue => exact h.value he hvalue
  | waits hkept hvalue =>
    have hcomma : e.role ≠ .comma := by
      intro hcomma
      rw [hcomma] at hkept
      simp [Role.isKept] at hkept
    refine h.push he ⟨hvalue, hcomma, (Role.ne_of_isKept hkept).2⟩ (.other ?_ ?_)
    · simpa [Role.isKept, hcomma] using hkept
    · exact h.counted.kept he hkept
  | groupOpen hopen =>
    refine h.push he (by simp [hopen, Role.isValue]) (.group ?_ ?_ (h.counted.groupOpen he hopen))
    · rw [Placed.role, hopen]
      rfl
    · rw [Placed.role, hopen]
      simp
  | callOpen hopen =>
    exact h.push he (by simp [hopen, Role.isValue])
      (.call hopen (.opened es n e) (h.counted.callOpen he hopen))
  | comma hcomma hk => exact h.comma he hcomma hk
  | closeGroup hclose hk hcall => exact h.closeGroup he hclose hk hcall
  | closeCall hclose hk hf hframe hfs hpending =>
    obtain ⟨frame, fs', rfl, -, -⟩ := h.counted.exists_frame hk
    subst hframe hfs
    exact h.closeCall he hclose hk hf hpending

/-- Taking in one element keeps the invariant. -/
theorem step {t : Sorting} (h : Invariant es n s) (he : es[n]? = some e)
    (hs : s.sorting.step e = .ok t) : ∃ v : Lineup, v.sorting = t ∧ Invariant es (n + 1) v := by
  obtain ⟨u, v, hu, hcall, htakes, hv⟩ := exists_takes n hs
  refine ⟨v, hv, takes ?_ he htakes⟩
  by_cases hopen : e.role = .callOpen
  · rw [hcall hopen]
    exact h
  · refine h.release hu fun o ho => ?_
    obtain rfl : e = o := by simpa [he] using ho
    exact hopen

/-- Taking in elements keeps the invariant. -/
theorem foldlM {taken todo : List Element} {s : Lineup} {t : Sorting}
    (h : Invariant (taken ++ todo) taken.length s)
    (hs : todo.foldlM Sorting.step s.sorting = .ok t) :
    ∃ v : Lineup, v.sorting = t ∧ Invariant (taken ++ todo) (taken ++ todo).length v := by
  induction todo generalizing taken s with
  | nil =>
    obtain rfl : s.sorting = t := Except.ok.inj hs
    exact ⟨s, rfl, by simpa using h⟩
  | cons e todo ih =>
    rw [List.foldlM_cons, Except.bind_eq_ok] at hs
    obtain ⟨t₁, hstep, hs⟩ := hs
    obtain ⟨v, rfl, hv⟩ := h.step (by simp) hstep
    rw [List.append_cons taken e todo] at hv ⊢
    exact ih (by simpa using hv) hs

/-- At the end nothing waits. -/
theorem finish {out : List Element} (h : Invariant es es.length s)
    (hs : s.sorting.finish = .ok out) :
    ∃ o fs, Invariant es es.length ⟨o, [], fs⟩ ∧ o.reverse.map (·.element) = out := by
  obtain ⟨⟨o, w, fs⟩, hu, hsorting, -⟩ := exists_releases (fun _ => inside_parenthesis) s
  unfold Sorting.finish at hs
  simp only [← hsorting] at hs
  cases w with
  | nil =>
    refine ⟨o, fs, h.release hu (by simp), ?_⟩
    simpa [sorting] using hs
  | cons x w => simp [sorting] at hs

/-- What holds at the end of elements that can be put into postfix order. -/
theorem of_toPostfix {out : List Element} (h : Element.toPostfix es = .ok out) :
    ∃ o fs, Invariant es es.length ⟨o, [], fs⟩ ∧ o.reverse.map (·.element) = out := by
  unfold Element.toPostfix at h
  split at h
  · simp at h
  · rename_i t ht
    have hstart : Invariant ([] ++ es) ([] : List Element).length ⟨[], [], []⟩ := empty es
    obtain ⟨v, rfl, hv⟩ := hstart.foldlM ht
    exact hv.finish h

end Lineup.Invariant

/-! ## Elements that are put into postfix order -/

namespace Element

/-- Elements in any order that can be put into postfix order are rearranged : none is lost but the
commas and the parentheses, none is duplicated, what comes behind a literal or a variable stays
behind it, and functions count the arguments in the list behind them. -/
theorem rearranges_toPostfix {es out : List Element} (h : toPostfix es = .ok out) :
    ∃ placed : List Placed, placed.map (·.element) = out ∧ Rearranges es placed := by
  obtain ⟨o, fs, hinv, hout⟩ := Lineup.Invariant.of_toPostfix h
  refine ⟨o.reverse, hout, ?_, fun x hx => hinv.settled x (List.mem_reverse.1 hx), ?_, ?_⟩
  · have hpositions := hinv.positions
    simp only [List.filter_nil, List.append_nil] at hpositions
    exact ((List.reverse_perm o).map _).trans hpositions
  · intro i j x y hx hy hvalue hlt
    have horder : o.reverse.Pairwise fun x y => y.role.isValue = true → x.position < y.position :=
      List.pairwise_reverse.2 hinv.order
    obtain ⟨hi, rfl⟩ := List.getElem?_eq_some_iff.1 hx
    obtain ⟨hj, rfl⟩ := List.getElem?_eq_some_iff.1 hy
    by_contra hij
    rcases Nat.lt_or_eq_of_le (Nat.le_of_not_lt hij) with hji | rfl
    · exact Nat.lt_asymm hlt (List.pairwise_iff_getElem.1 horder j i hj hi hji hvalue)
    · exact Nat.lt_irrefl _ hlt
  · intro k e he hcall
    have hk := (List.getElem?_eq_some_iff.1 he).1
    rcases hinv.lists k hk e he hcall with ⟨x, hx, -⟩ | ⟨x, hx, hcounts⟩
    · simp at hx
    · exact ⟨x, List.mem_reverse.2 hx, hcounts⟩

/-- A literal, and behind it a call with two arguments, the second of which is a call without
arguments. -/
theorem rearranges_toPostfix_calls : ∃ es out placed,
    es.map lexeme = ["1", "f", "(", "x", ",", "g", "(", ")", ")"] ∧ toPostfix es = .ok out ∧
      out.map (fun e => (e.lexeme, e.argc)) = [("1", 0), ("x", 0), ("g", 0), ("f", 2)] ∧
      placed.map (·.element) = out ∧ Rearranges es placed := by
  have h : toPostfix
      [⟨⟨"1", .integer, 1⟩, .literal .integer, 0⟩, ⟨⟨"f", .identifier, 1⟩, .function, 0⟩,
        ⟨⟨"(", .leftParen, 1⟩, .callOpen, 0⟩, ⟨⟨"x", .identifier, 1⟩, .name, 0⟩,
        ⟨⟨",", .comma, 1⟩, .comma, 0⟩, ⟨⟨"g", .identifier, 1⟩, .function, 0⟩,
        ⟨⟨"(", .leftParen, 1⟩, .callOpen, 0⟩, ⟨⟨")", .rightParen, 1⟩, .close, 0⟩,
        ⟨⟨")", .rightParen, 1⟩, .close, 0⟩] =
      .ok [⟨⟨"1", .integer, 1⟩, .literal .integer, 0⟩, ⟨⟨"x", .identifier, 1⟩, .name, 0⟩,
        ⟨⟨"g", .identifier, 1⟩, .function, 0⟩, ⟨⟨"f", .identifier, 1⟩, .function, 2⟩] := rfl
  obtain ⟨placed, hout, hplaced⟩ := rearranges_toPostfix h
  exact ⟨_, _, placed, rfl, h, rfl, hout, hplaced⟩

end Element

end Formula
