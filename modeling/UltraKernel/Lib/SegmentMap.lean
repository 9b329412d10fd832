import Mathlib.Order.Basic
import Mathlib.Order.Defs.LinearOrder
import Mathlib.Data.List.Basic
import Mathlib.Data.List.Chain
import Mathlib.Data.List.Perm.Basic
import Mathlib.Tactic.Order
import Mathlib.Tactic.TypeStar

/-!
# Maps with finitely many segments

A list of labelled half-open segments over a linear order stands for the partial function that
sends a point to the label of the segment holding it.  `Ordered` lists have non-empty segments in
ascending, disjoint positions; `Coalesced` lists have no two touching segments of one label.

* `Ordered.carve`: relabelling a part of one segment, by splitting that segment and gluing
  the new piece to touching neighbours of its own label, updates the function on that part only;
* `Coalesced.carve`: the same operation keeps a coalesced list coalesced;
* `eq_of_denote_eq`: an ordered coalesced list is determined by the function it stands for.
-/

namespace UltraKernel

/-- The half-open segment from `lo` to `hi`, carrying a label. -/
structure Segment (α β : Type*) where
  lo : α
  hi : α
  label : β
  deriving DecidableEq

namespace Segment

variable {α β : Type*} [LinearOrder α]

/-- The points of a segment. -/
def Contains (s : Segment α β) (x : α) : Prop := s.lo ≤ x ∧ x < s.hi

instance (s : Segment α β) (x : α) : Decidable (s.Contains x) := inferInstanceAs (Decidable (_ ∧ _))

/-- `s` ends where `t` begins, and both carry one label. -/
def Touches (s t : Segment α β) : Prop := s.label = t.label ∧ s.hi = t.lo

instance [DecidableEq β] (s t : Segment α β) : Decidable (s.Touches t) :=
  inferInstanceAs (Decidable (_ ∧ _))

end Segment

namespace SegmentMap

open Segment

variable {α β : Type*} [LinearOrder α]

/-- The partial function a list of segments stands for. -/
def denote (l : List (Segment α β)) (x : α) : Option β :=
  (l.find? fun s => s.Contains x).map Segment.label

/-- Non-empty segments in ascending, disjoint positions. -/
structure Ordered (l : List (Segment α β)) : Prop where
  nonempty : ∀ s ∈ l, s.lo < s.hi
  sorted : l.Pairwise fun s t => s.hi ≤ t.lo

/-- No two touching segments of one label. -/
def Coalesced (l : List (Segment α β)) : Prop := l.IsChain fun s t => ¬ s.Touches t

/-! ### Denotation -/

theorem denote_append (l m : List (Segment α β)) (x : α) :
    denote (l ++ m) x = (denote l x).or (denote m x) := by
  unfold denote
  rw [List.find?_append]
  cases List.find? (fun s => decide (s.Contains x)) l <;> rfl

theorem denote_cons (s : Segment α β) (l : List (Segment α β)) (x : α) :
    denote (s :: l) x = if s.Contains x then some s.label else denote l x := by
  unfold denote
  by_cases h : s.Contains x <;> simp [h]

theorem denote_eq_none_iff {l : List (Segment α β)} {x : α} :
    denote l x = none ↔ ∀ s ∈ l, ¬ s.Contains x := by
  simp [denote]

theorem exists_of_denote_eq_some {l : List (Segment α β)} {x : α} {b : β}
    (h : denote l x = some b) : ∃ s ∈ l, s.Contains x ∧ s.label = b := by
  obtain ⟨s, hs, rfl⟩ := Option.map_eq_some_iff.mp h
  exact ⟨s, List.mem_of_find?_eq_some hs, by simpa using List.find?_some hs, rfl⟩

/-! ### Ordered lists -/

theorem ordered_append {l m : List (Segment α β)} :
    Ordered (l ++ m) ↔ Ordered l ∧ Ordered m ∧ ∀ s ∈ l, ∀ t ∈ m, s.hi ≤ t.lo := by
  constructor
  · intro h
    obtain ⟨hl, hm, hlm⟩ := List.pairwise_append.mp h.sorted
    exact ⟨⟨fun s hs => h.nonempty s (List.mem_append_left _ hs), hl⟩,
      ⟨fun s hs => h.nonempty s (List.mem_append_right _ hs), hm⟩, hlm⟩
  · rintro ⟨hl, hm, hlm⟩
    refine ⟨fun s hs => ?_, List.pairwise_append.mpr ⟨hl.sorted, hm.sorted, hlm⟩⟩
    rcases List.mem_append.mp hs with hs | hs
    · exact hl.nonempty s hs
    · exact hm.nonempty s hs

theorem ordered_cons {s : Segment α β} {l : List (Segment α β)} :
    Ordered (s :: l) ↔ s.lo < s.hi ∧ (∀ t ∈ l, s.hi ≤ t.lo) ∧ Ordered l := by
  constructor
  · intro h
    obtain ⟨hs, hl⟩ := List.pairwise_cons.mp h.sorted
    exact ⟨h.nonempty s List.mem_cons_self, hs,
      ⟨fun t ht => h.nonempty t (List.mem_cons_of_mem _ ht), hl⟩⟩
  · rintro ⟨hs, hsl, hl⟩
    exact ⟨List.forall_mem_cons.mpr ⟨hs, hl.nonempty⟩, List.pairwise_cons.mpr ⟨hsl, hl.sorted⟩⟩

theorem ordered_nil : Ordered ([] : List (Segment α β)) := ⟨by simp, by simp⟩

theorem ordered_singleton {s : Segment α β} : Ordered [s] ↔ s.lo < s.hi := by
  simp [ordered_cons, ordered_nil]

/-- In an ordered list a point lies in at most one segment. -/
theorem Ordered.eq_of_contains {l : List (Segment α β)} (h : Ordered l) {s t : Segment α β} {x : α}
    (hs : s ∈ l) (ht : t ∈ l) (hsx : s.Contains x) (htx : t.Contains x) : s = t := by
  have disjoint : ∀ {u v : Segment α β}, u.hi ≤ v.lo → u.Contains x → ¬ v.Contains x :=
    fun huv hu hv => absurd (hu.2.trans_le (huv.trans hv.1)) (lt_irrefl x)
  induction l with
  | nil => simp at hs
  | cons u l ih =>
    obtain ⟨_, hul, hl⟩ := ordered_cons.mp h
    rcases List.mem_cons.mp hs with rfl | hs' <;> rcases List.mem_cons.mp ht with rfl | ht'
    · rfl
    · exact absurd htx (disjoint (hul t ht') hsx)
    · exact absurd hsx (disjoint (hul s hs') htx)
    · exact ih hl hs' ht'

theorem Ordered.denote_of_mem {l : List (Segment α β)} (h : Ordered l) {s : Segment α β} {x : α}
    (hs : s ∈ l) (hsx : s.Contains x) : denote l x = some s.label := by
  cases hd : denote l x with
  | none => exact absurd hsx (denote_eq_none_iff.mp hd s hs)
  | some b =>
    obtain ⟨t, ht, htx, rfl⟩ := exists_of_denote_eq_some hd
    rw [h.eq_of_contains hs ht hsx htx]

/-- Replacing a window of an ordered list by an ordered window inside the same bounds. -/
theorem Ordered.replace {l w r v : List (Segment α β)} (h : Ordered (l ++ (w ++ r)))
    (hv : Ordered v)
    (hlo : ∀ s ∈ v, ∃ t ∈ w, t.lo ≤ s.lo) (hhi : ∀ s ∈ v, ∃ t ∈ w, s.hi ≤ t.hi) :
    Ordered (l ++ (v ++ r)) := by
  obtain ⟨hl, hwr, hlwr⟩ := ordered_append.mp h
  obtain ⟨_, hr, hwr'⟩ := ordered_append.mp hwr
  refine ordered_append.mpr ⟨hl, ordered_append.mpr ⟨hv, hr, ?_⟩, ?_⟩
  · intro s hs t ht
    obtain ⟨u, hu, hsu⟩ := hhi s hs
    exact hsu.trans (hwr' u hu t ht)
  · intro s hs t ht
    rcases List.mem_append.mp ht with ht | ht
    · obtain ⟨u, hu, hut⟩ := hlo t ht
      exact (hlwr s hs u (List.mem_append_left _ hu)).trans hut
    · exact hlwr s hs t (List.mem_append_right _ ht)

/-! ### Gluing a segment to its neighbours -/

section Glue

variable [DecidableEq β]

/-- Append a segment, absorbing the last one when they touch. -/
def glueLeft (l : List (Segment α β)) (s : Segment α β) : List (Segment α β) × Segment α β :=
  match l.getLast? with
  | some t => if t.Touches s then (l.dropLast, { s with lo := t.lo }) else (l, s)
  | none => (l, s)

/-- Prepend a segment, absorbing the first one when they touch. -/
def glueRight (s : Segment α β) (r : List (Segment α β)) : Segment α β × List (Segment α β) :=
  match r with
  | t :: r' => if s.Touches t then ({ s with hi := t.hi }, r') else (s, t :: r')
  | [] => (s, [])

/-- Put a segment between two lists, absorbing touching neighbours of its label. -/
def glue (l : List (Segment α β)) (s : Segment α β) (r : List (Segment α β)) :
    List (Segment α β) :=
  let left := glueLeft l s
  let right := glueRight left.2 r
  left.1 ++ right.1 :: right.2

/-- The two shapes `glueLeft` can take. -/
theorem glueLeft_cases (l : List (Segment α β)) (s : Segment α β) :
    (∃ l' t, l = l' ++ [t] ∧ t.Touches s ∧ glueLeft l s = (l', { s with lo := t.lo })) ∨
    ((∀ l' t, l = l' ++ [t] → ¬ t.Touches s) ∧ glueLeft l s = (l, s)) := by
  rcases List.eq_nil_or_concat l with rfl | ⟨l', t, rfl⟩
  · exact Or.inr ⟨by simp, rfl⟩
  · rw [List.concat_eq_append]
    by_cases h : t.Touches s
    · exact Or.inl ⟨l', t, rfl, h, by simp [glueLeft, h]⟩
    · refine Or.inr ⟨?_, by simp [glueLeft, h]⟩
      intro l'' u hu
      obtain ⟨_, rfl⟩ := List.append_singleton_inj.mp hu
      exact h

/-- The two shapes `glueRight` can take. -/
theorem glueRight_cases (s : Segment α β) (r : List (Segment α β)) :
    (∃ t r', r = t :: r' ∧ s.Touches t ∧ glueRight s r = ({ s with hi := t.hi }, r')) ∨
    ((∀ t r', r = t :: r' → ¬ s.Touches t) ∧ glueRight s r = (s, r)) := by
  cases r with
  | nil => exact Or.inr ⟨by simp, rfl⟩
  | cons t r' =>
    by_cases h : s.Touches t
    · exact Or.inl ⟨t, r', rfl, h, by simp [glueRight, h]⟩
    · refine Or.inr ⟨?_, by simp [glueRight, h]⟩
      rintro u r'' ⟨⟩
      exact h

theorem glueLeft_of_touches {l : List (Segment α β)} {t s : Segment α β} (h : t.Touches s) :
    glueLeft (l ++ [t]) s = (l, { s with lo := t.lo }) := by simp [glueLeft, h]

theorem glueLeft_of_not {l : List (Segment α β)} {s : Segment α β}
    (h : ∀ t ∈ l.getLast?, ¬ t.Touches s) : glueLeft l s = (l, s) := by
  rcases glueLeft_cases l s with ⟨l', t, rfl, ht, _⟩ | ⟨_, heq⟩
  · exact absurd ht (h t (by simp))
  · exact heq

theorem glueRight_of_touches {r : List (Segment α β)} {t s : Segment α β} (h : s.Touches t) :
    glueRight s (t :: r) = ({ s with hi := t.hi }, r) := by simp [glueRight, h]

theorem glueRight_of_not {r : List (Segment α β)} {s : Segment α β}
    (h : ∀ t ∈ r.head?, ¬ s.Touches t) : glueRight s r = (s, r) := by
  rcases glueRight_cases s r with ⟨t, r', rfl, ht, _⟩ | ⟨_, heq⟩
  · exact absurd ht (h t (by simp))
  · exact heq

theorem glue_eq {l r l' r' : List (Segment α β)} {s s' t : Segment α β}
    (hl : glueLeft l s = (l', s')) (hr : glueRight s' r = (t, r')) : glue l s r = l' ++ t :: r' := by
  simp only [glue, hl, hr]

omit [DecidableEq β] in
/-- Two touching segments may be written as one. -/
theorem denote_merge {l r : List (Segment α β)} {s t : Segment α β} (hst : s.Touches t)
    (hs : s.lo < s.hi) (ht : t.lo < t.hi) :
    denote (l ++ ⟨s.lo, t.hi, t.label⟩ :: r) = denote (l ++ s :: t :: r) := by
  funext x
  obtain ⟨hlabel, htouch⟩ := hst
  simp only [denote_append, denote_cons, Segment.Contains, hlabel]
  congr 1
  by_cases hx : x < s.hi
  · have hxt : x < t.hi := hx.trans_le (htouch.le.trans ht.le)
    have hxlo : ¬ t.lo ≤ x := not_le.mpr (hx.trans_le htouch.le)
    simp [hx, hxt, hxlo]
  · have hxlo : t.lo ≤ x := htouch.ge.trans (not_lt.mp hx)
    have hslo : s.lo ≤ x := hs.le.trans (not_lt.mp hx)
    simp [hx, hxlo, hslo]

omit [DecidableEq β] in
theorem Ordered.merge {l r : List (Segment α β)} {s t : Segment α β}
    (h : Ordered (l ++ s :: t :: r)) (hst : s.Touches t) :
    Ordered (l ++ ⟨s.lo, t.hi, t.label⟩ :: r) := by
  have hs := h.nonempty s (by simp)
  have ht := h.nonempty t (by simp)
  refine Ordered.replace (w := [s, t]) (v := [⟨s.lo, t.hi, t.label⟩]) h ?_ ?_ ?_
  · exact ordered_singleton.mpr (hs.trans_le (hst.2.le.trans ht.le))
  · exact fun u hu => ⟨s, by simp, by simp [List.mem_singleton.mp hu]⟩
  · exact fun u hu => ⟨t, by simp, by simp [List.mem_singleton.mp hu]⟩

/-- **Gluing changes neither the order nor the function.** -/
theorem Ordered.glue {l r : List (Segment α β)} {s : Segment α β} (h : Ordered (l ++ s :: r)) :
    Ordered (glue l s r) ∧ denote (glue l s r) = denote (l ++ s :: r) := by
  -- the left neighbour first, then the right one of the glued segment
  obtain ⟨hl, hld⟩ : Ordered ((glueLeft l s).1 ++ (glueLeft l s).2 :: r) ∧
      denote ((glueLeft l s).1 ++ (glueLeft l s).2 :: r) = denote (l ++ s :: r) := by
    rcases glueLeft_cases l s with ⟨l', t, rfl, ht, heq⟩ | ⟨_, heq⟩
    · rw [heq]
      rw [List.append_assoc] at h ⊢
      refine ⟨h.merge ht, denote_merge ht (h.nonempty t (by simp)) (h.nonempty s (by simp))⟩
    · rw [heq]
      exact ⟨h, rfl⟩
  have hcases := glueRight_cases (glueLeft l s).2 r
  unfold SegmentMap.glue
  generalize glueLeft l s = left at hl hld hcases ⊢
  rw [← hld]
  rcases hcases with ⟨t, r', rfl, ht, heq⟩ | ⟨_, heq⟩
  · simp only [heq]
    have hmerge := hl.merge ht
    have hdenote := denote_merge (l := left.1) (r := r') ht (hl.nonempty _ (by simp))
      (hl.nonempty t (by simp))
    rw [ht.1]
    exact ⟨hmerge, hdenote⟩
  · simp only [heq]
    exact ⟨hl, trivial⟩

omit [LinearOrder α] [DecidableEq β] in
theorem coalesced_append [LinearOrder α] {l r : List (Segment α β)} :
    Coalesced (l ++ r) ↔ Coalesced l ∧ Coalesced r ∧
      ∀ s ∈ l.getLast?, ∀ t ∈ r.head?, ¬ s.Touches t := List.isChain_append

/-- Gluing a segment between coalesced lists gives a coalesced list. -/
theorem Coalesced.glue {l r : List (Segment α β)} {s : Segment α β} (hl : Coalesced l)
    (hr : Coalesced r) : Coalesced (glue l s r) := by
  obtain ⟨hleft, hlast, hhi, hlab⟩ : Coalesced (glueLeft l s).1 ∧
      (∀ u ∈ (glueLeft l s).1.getLast?, ∀ hi, ¬ u.Touches { (glueLeft l s).2 with hi := hi }) ∧
      (glueLeft l s).2.hi = s.hi ∧ (glueLeft l s).2.label = s.label := by
    rcases glueLeft_cases l s with ⟨l', t, rfl, ht, heq⟩ | ⟨hno, heq⟩
    · rw [heq]
      obtain ⟨hl', _, hsep⟩ := coalesced_append.mp hl
      refine ⟨hl', ?_, rfl, rfl⟩
      intro u hu hi htouch
      exact hsep u hu t rfl ⟨htouch.1.trans ht.1.symm, htouch.2⟩
    · rw [heq]
      refine ⟨hl, ?_, rfl, rfl⟩
      intro u hu hi htouch
      obtain ⟨l', rfl⟩ := List.getLast?_eq_some_iff.mp hu
      exact hno l' u rfl htouch
  have hcases := glueRight_cases (glueLeft l s).2 r
  unfold SegmentMap.glue
  generalize glueLeft l s = left at hleft hlast hhi hlab hcases ⊢
  refine coalesced_append.mpr ⟨hleft, ?_, ?_⟩
  · refine List.isChain_cons.mpr ?_
    rcases hcases with ⟨t, r', rfl, ht, heq⟩ | ⟨hno, heq⟩
    · rw [heq]
      obtain ⟨hhead, hr'⟩ := List.isChain_cons.mp hr
      exact ⟨fun u hu htouch => hhead u hu ⟨ht.1.symm.trans htouch.1, htouch.2⟩, hr'⟩
    · rw [heq]
      refine ⟨fun u hu htouch => ?_, hr⟩
      obtain ⟨r', rfl⟩ := List.head?_eq_some_iff.mp hu
      exact hno u r' rfl htouch
  · intro u hu v hv
    obtain rfl : (glueRight left.2 r).1 = v := by simpa using hv
    rcases hcases with ⟨t, r', rfl, ht, heq⟩ | ⟨hno, heq⟩
    · rw [heq]
      exact hlast u hu t.hi
    · rw [heq]
      exact hlast u hu left.2.hi

/-! ### Carving a piece out of a segment -/

omit [DecidableEq β] in
/-- What remains of `cur` below `new`. -/
def lowPiece (cur new : Segment α β) : List (Segment α β) :=
  if cur.lo < new.lo then [{ cur with hi := new.lo }] else []

omit [DecidableEq β] in
/-- What remains of `cur` above `new`. -/
def highPiece (cur new : Segment α β) : List (Segment α β) :=
  if new.hi < cur.hi then [{ cur with lo := new.hi }] else []

/-- Replace the part `new` of the segment `cur`, gluing `new` to the neighbours it touches. -/
def carve (l : List (Segment α β)) (cur : Segment α β) (r : List (Segment α β))
    (new : Segment α β) : List (Segment α β) :=
  glue (l ++ lowPiece cur new) new (highPiece cur new ++ r)

/-- `new` is a non-empty part of `cur`. -/
structure Part (new cur : Segment α β) : Prop where
  lo_le : cur.lo ≤ new.lo
  nonempty : new.lo < new.hi
  le_hi : new.hi ≤ cur.hi

omit [DecidableEq β] in
theorem Part.contains {new cur : Segment α β} (h : Part new cur) {x : α} (hx : new.Contains x) :
    cur.Contains x := ⟨h.lo_le.trans hx.1, hx.2.trans_le h.le_hi⟩

omit [DecidableEq β] in
theorem Part.ordered_pieces {new cur : Segment α β} (h : Part new cur) :
    Ordered (lowPiece cur new ++ new :: highPiece cur new) := by
  have hnew := h.nonempty
  unfold lowPiece highPiece
  split_ifs with hlo hhi hhi <;>
    simp only [List.nil_append, List.cons_append, ordered_cons, ordered_nil, List.mem_cons,
      List.not_mem_nil, or_false, forall_eq_or_imp, forall_eq, and_true, false_imp_iff,
      implies_true] <;> grind

omit [DecidableEq β] in
theorem Part.denote_pieces {new cur : Segment α β} (h : Part new cur) (x : α) :
    denote (lowPiece cur new ++ new :: highPiece cur new) x =
      if new.Contains x then some new.label else denote [cur] x := by
  obtain ⟨hlo, hnew, hhi⟩ := h
  unfold lowPiece highPiece
  split_ifs with h1 h2 h3 h3 h3 <;>
    simp only [List.nil_append, List.cons_append, denote_cons, Segment.Contains] at * <;> grind

omit [DecidableEq β] in
/-- The pieces of `cur` around `new` stay in order among the other segments. -/
theorem Ordered.pieces {l r : List (Segment α β)} {cur new : Segment α β}
    (h : Ordered (l ++ cur :: r)) (hp : Part new cur) :
    Ordered ((l ++ lowPiece cur new) ++ new :: (highPiece cur new ++ r)) := by
  have hbounds : ∀ s ∈ lowPiece cur new ++ new :: highPiece cur new,
      cur.lo ≤ s.lo ∧ s.hi ≤ cur.hi := by
    intro s hs
    have := hp.lo_le
    have := hp.nonempty
    have := hp.le_hi
    unfold lowPiece highPiece at hs
    split_ifs at hs <;> simp at hs <;> grind
  have := Ordered.replace (w := [cur]) (r := r) h hp.ordered_pieces
    (fun s hs => ⟨cur, by simp, (hbounds s hs).1⟩) (fun s hs => ⟨cur, by simp, (hbounds s hs).2⟩)
  simpa only [List.append_assoc, List.cons_append] using this

/-- **Carving keeps the order and updates the function on the carved part only.** -/
theorem Ordered.carve {l r : List (Segment α β)} {cur new : Segment α β}
    (h : Ordered (l ++ cur :: r)) (hp : Part new cur) :
    Ordered (carve l cur r new) ∧ ∀ x, denote (carve l cur r new) x =
      if new.Contains x then some new.label else denote (l ++ cur :: r) x := by
  obtain ⟨hord, hden⟩ := (h.pieces hp).glue
  refine ⟨hord, fun x => ?_⟩
  have hl : new.Contains x → denote l x = none := by
    intro hx
    apply denote_eq_none_iff.mpr
    intro s hs hsx
    have hle := (ordered_append.mp h).2.2 s hs cur (by simp)
    exact absurd (hsx.2.trans_le (hle.trans (hp.contains hx).1)) (lt_irrefl x)
  have hpieces := hp.denote_pieces x
  rw [SegmentMap.carve, hden, List.append_assoc, ← List.cons_append, ← List.append_assoc
    (lowPiece cur new), denote_append, denote_append, hpieces, denote_append, denote_cons]
  by_cases hx : new.Contains x
  · simp [hx, hl hx]
  · cases denote l x <;> by_cases hc : cur.Contains x <;> simp [hx, hc, denote]

/-- **Carving keeps a coalesced list coalesced**, when the label changes. -/
theorem Coalesced.carve {l r : List (Segment α β)} {cur new : Segment α β}
    (h : Coalesced (l ++ cur :: r)) : Coalesced (carve l cur r new) := by
  obtain ⟨hl, hcr, hlc⟩ := coalesced_append.mp h
  obtain ⟨hcr', hr⟩ := List.isChain_cons.mp hcr
  refine Coalesced.glue ?_ ?_
  · unfold lowPiece
    split_ifs
    · refine coalesced_append.mpr ⟨hl, List.isChain_singleton _, fun s hs t ht => ?_⟩
      obtain rfl : _ = t := by simpa using ht
      exact hlc s hs cur rfl
    · simpa using hl
  · unfold highPiece
    split_ifs
    · exact List.isChain_cons.mpr ⟨hcr', hr⟩
    · exact hr

/-! ### Intervals inside one segment -/

omit [DecidableEq β] in
/-- The interval from `lo` to `hi` lies inside one segment. -/
def Within (l : List (Segment α β)) (lo hi : α) : Prop := ∃ s ∈ l, s.lo ≤ lo ∧ hi ≤ s.hi

omit [DecidableEq β] in
theorem within_append {l m : List (Segment α β)} {lo hi : α} :
    Within (l ++ m) lo hi ↔ Within l lo hi ∨ Within m lo hi := by
  simp [Within, or_and_right, exists_or]

omit [DecidableEq β] in
theorem within_cons {s : Segment α β} {l : List (Segment α β)} {lo hi : α} :
    Within (s :: l) lo hi ↔ (s.lo ≤ lo ∧ hi ≤ s.hi) ∨ Within l lo hi := by
  simp [Within]

omit [DecidableEq β] in
/-- Writing two touching segments as one only extends them. -/
theorem Within.merge {l r : List (Segment α β)} {s t : Segment α β} {lo hi : α}
    (h : Within (l ++ s :: t :: r) lo hi) (hst : s.Touches t) (hs : s.lo < s.hi)
    (ht : t.lo < t.hi) : Within (l ++ ⟨s.lo, t.hi, t.label⟩ :: r) lo hi := by
  have htouch := hst.2
  simp only [within_append, within_cons] at h ⊢
  rcases h with h | ⟨hlo, hhi⟩ | ⟨hlo, hhi⟩ | h
  · exact Or.inl h
  · exact Or.inr (Or.inl ⟨hlo, by order⟩)
  · exact Or.inr (Or.inl ⟨by order, hhi⟩)
  · exact Or.inr (Or.inr h)

/-- Gluing only extends segments. -/
theorem Within.glue {l r : List (Segment α β)} {s : Segment α β} {lo hi : α}
    (h : Within (l ++ s :: r) lo hi) (hord : Ordered (l ++ s :: r)) :
    Within (glue l s r) lo hi := by
  -- the left neighbour first, then the right one of the glued segment
  obtain ⟨hl, hlord⟩ : Within ((glueLeft l s).1 ++ (glueLeft l s).2 :: r) lo hi ∧
      Ordered ((glueLeft l s).1 ++ (glueLeft l s).2 :: r) := by
    rcases glueLeft_cases l s with ⟨l', t, rfl, ht, heq⟩ | ⟨_, heq⟩
    · rw [heq]
      rw [List.append_assoc] at h hord
      exact ⟨h.merge ht (hord.nonempty t (by simp)) (hord.nonempty s (by simp)), hord.merge ht⟩
    · rw [heq]
      exact ⟨h, hord⟩
  have hcases := glueRight_cases (glueLeft l s).2 r
  unfold SegmentMap.glue
  generalize glueLeft l s = left at hl hlord hcases ⊢
  rcases hcases with ⟨t, r', rfl, ht, heq⟩ | ⟨_, heq⟩
  · simp only [heq]
    rw [ht.1]
    exact hl.merge ht (hlord.nonempty _ (by simp)) (hlord.nonempty t (by simp))
  · simpa only [heq] using hl

/-- The carved piece lies inside one segment, and so does every interval beside it that did. -/
theorem Ordered.within_carve {l r : List (Segment α β)} {cur new : Segment α β}
    (h : Ordered (l ++ cur :: r)) (hp : Part new cur) :
    Within (SegmentMap.carve l cur r new) new.lo new.hi ∧
      ∀ lo hi, lo < hi → hi ≤ new.lo ∨ new.hi ≤ lo → Within (l ++ cur :: r) lo hi →
        Within (SegmentMap.carve l cur r new) lo hi := by
  have hpieces := h.pieces hp
  refine ⟨Within.glue ⟨new, by simp, le_rfl, le_rfl⟩ hpieces, fun lo hi hne hbeside => ?_⟩
  rintro ⟨u, hu, hlo, hhi⟩
  refine Within.glue ?_ hpieces
  rcases List.mem_append.mp hu with hu | hu
  · exact ⟨u, by simp [hu], hlo, hhi⟩
  rcases List.mem_cons.mp hu with rfl | hu
  · rcases hbeside with hbelow | habove
    · refine ⟨{ u with hi := new.lo }, ?_, hlo, hbelow⟩
      have : u.lo < new.lo := by order
      simp [lowPiece, this]
    · refine ⟨{ u with lo := new.hi }, ?_, habove, hhi⟩
      have : new.hi < u.hi := by order
      simp [highPiece, this]
  · exact ⟨u, by simp [hu], hlo, hhi⟩

end Glue

/-! ### Uniqueness of coalesced lists -/

/-- A function value at or above the end of the first segment comes from the rest. -/
theorem denote_first_hi {s : Segment α β} {l : List (Segment α β)} (h : Ordered (s :: l))
    (hc : Coalesced (s :: l)) : denote (s :: l) s.hi ≠ some s.label := by
  intro hd
  obtain ⟨_, hsl, hl⟩ := ordered_cons.mp h
  rw [denote_cons, if_neg (fun hx => lt_irrefl _ hx.2)] at hd
  obtain ⟨u, hu, hux, hlab⟩ := exists_of_denote_eq_some hd
  cases l with
  | nil => simp at hu
  | cons v l =>
    obtain ⟨hv, hvl, _⟩ := ordered_cons.mp hl
    have huv : u = v := by
      rcases List.mem_cons.mp hu with rfl | hu
      · rfl
      · have h1 : s.hi ≤ v.lo := hsl v (by simp)
        exact absurd ((h1.trans_lt hv).trans_le ((hvl u hu).trans hux.1)) (lt_irrefl _)
    subst huv
    refine (List.isChain_cons.mp hc).1 u rfl ⟨hlab.symm, ?_⟩
    exact le_antisymm (hsl u (by simp)) hux.1

theorem denote_below_first {s : Segment α β} {l : List (Segment α β)} (h : Ordered (s :: l)) {x : α}
    (hx : x < s.lo) : denote (s :: l) x = none := by
  obtain ⟨hs, hsl, _⟩ := ordered_cons.mp h
  apply denote_eq_none_iff.mpr
  intro t ht htx
  rcases List.mem_cons.mp ht with rfl | ht
  · exact absurd (hx.trans_le htx.1) (lt_irrefl x)
  · exact absurd ((hx.trans hs).trans_le ((hsl t ht).trans htx.1)) (lt_irrefl x)

theorem denote_first_lo {s : Segment α β} {l : List (Segment α β)} (h : Ordered (s :: l)) :
    denote (s :: l) s.lo = some s.label :=
  h.denote_of_mem (by simp) ⟨le_rfl, h.nonempty s (by simp)⟩

/-- **An ordered coalesced list is determined by the function it stands for.** -/
theorem eq_of_denote_eq {l m : List (Segment α β)} (hl : Ordered l) (hm : Ordered m)
    (hcl : Coalesced l) (hcm : Coalesced m) (h : denote l = denote m) : l = m := by
  induction l generalizing m with
  | nil =>
    cases m with
    | nil => rfl
    | cons t m => exact absurd ((congrFun h t.lo).trans (denote_first_lo hm)) (by simp [denote])
  | cons s l ih =>
    cases m with
    | nil => exact absurd ((congrFun h s.lo).symm.trans (denote_first_lo hl)) (by simp [denote])
    | cons t m =>
      have hlo : s.lo = t.lo := by
        rcases lt_trichotomy s.lo t.lo with hlt | heq | hgt
        · exact absurd ((denote_first_lo hl).symm.trans ((congrFun h _).trans
            (denote_below_first hm hlt))) (by simp)
        · exact heq
        · exact absurd ((denote_first_lo hm).symm.trans ((congrFun h _).symm.trans
            (denote_below_first hl hgt))) (by simp)
      have hlabel : s.label = t.label := by
        have := (denote_first_lo hl).symm.trans (congrFun h _)
        rw [hlo, denote_first_lo hm] at this
        exact Option.some.inj this
      have hs := hl.nonempty s (by simp)
      have ht := hm.nonempty t (by simp)
      have hhi : s.hi = t.hi := by
        rcases lt_trichotomy s.hi t.hi with hlt | heq | hgt
        · refine absurd ?_ (denote_first_hi hl hcl)
          rw [h, hlabel]
          exact hm.denote_of_mem (by simp) ⟨hlo ▸ hs.le, hlt⟩
        · exact heq
        · refine absurd ?_ (denote_first_hi hm hcm)
          rw [← h, ← hlabel]
          exact hl.denote_of_mem (by simp) ⟨hlo ▸ ht.le, hgt⟩
      obtain rfl : s = t := by
        cases s
        cases t
        simp_all
      obtain ⟨_, hsl, hl'⟩ := ordered_cons.mp hl
      obtain ⟨_, hsm, hm'⟩ := ordered_cons.mp hm
      refine congrArg _ (ih hl' hm' (List.isChain_cons.mp hcl).2 (List.isChain_cons.mp hcm).2 ?_)
      funext x
      have hx := congrFun h x
      rw [denote_cons, denote_cons] at hx
      by_cases hsx : s.Contains x
      · have hnone : ∀ k : List (Segment α β), (∀ u ∈ k, s.hi ≤ u.lo) → denote k x = none := by
          intro k hk
          apply denote_eq_none_iff.mpr
          intro u hu hux
          exact absurd (hsx.2.trans_le ((hk u hu).trans hux.1)) (lt_irrefl x)
        rw [hnone l hsl, hnone m hsm]
      · simpa [hsx] using hx

end SegmentMap

end UltraKernel
