import Sequences.Proofs.Course
import Sequences.Proofs.StableMerge

/-! Merging lists of any kind under any comparison. The lists need not be in order
and the comparison need not be consistent, so all that is left to say of the result is
how it comes about: both lists are taken in their order, and wherever both have an
element left the comparison of the first ones decides. That much determines it. -/
namespace Sequences

variable {α : Type}

theorem taken_append (side : Side) (marks more : List (Side × α)) :
    taken side (marks ++ more) = taken side marks ++ taken side more := List.filterMap_append ..

/-- The marks of a greedy merge. Each list comes out as a whole and in its order, and
wherever both lists have an element left, the comparison of the first ones decides
from which list the next element is taken. -/
structure GreedyMerge (cmp : α → α → Ordering) (as bs : List α) (marks : List (Side × α)) :
    Prop where
  carried : ∀ side : Side, taken side marks = side.pick as bs
  greedy : ∀ p side z x y, marks[p]? = some (side, z) →
    as[(taken .left (marks.take p)).length]? = some x →
    bs[(taken .right (marks.take p)).length]? = some y → (side = .left ↔ (cmp x y).isLE)

section GreedyMerge

variable {cmp : α → α → Ordering} {as bs : List α} {marks others : List (Side × α)}

theorem greedyMerge_nil_iff : GreedyMerge cmp as bs [] ↔ as = [] ∧ bs = [] := by
  constructor
  · intro hGreedy
    exact ⟨(hGreedy.carried .left).symm, (hGreedy.carried .right).symm⟩
  · rintro ⟨rfl, rfl⟩
    constructor
    case carried =>
      intro side
      cases side <;> rfl
    case greedy => simp

theorem greedyMerge_cons_iff {side : Side} {z : α} :
    GreedyMerge cmp as bs ((side, z) :: marks) ↔ ∃ restA restB,
      as = taken .left [(side, z)] ++ restA ∧ bs = taken .right [(side, z)] ++ restB ∧
      (∀ x y, as[0]? = some x → bs[0]? = some y → (side = .left ↔ (cmp x y).isLE)) ∧
      GreedyMerge cmp restA restB marks := by
  have hTaken (other : Side) (more : List (Side × α)) :
      taken other ((side, z) :: more) = taken other [(side, z)] ++ taken other more :=
    taken_append other [(side, z)] more
  have hIndex (other : Side) (rest : List α) (p : Nat) :
      (taken other [(side, z)] ++ rest)[(taken other (((side, z) :: marks).take (p + 1))).length]? =
        rest[(taken other (marks.take p)).length]? := by
    rw [List.take_succ_cons, hTaken other (marks.take p), List.length_append,
      List.getElem?_append_right (Nat.le_add_right _ _), Nat.add_sub_cancel_left]
  constructor
  · intro hGreedy
    have hLeft : as = taken .left [(side, z)] ++ taken .left marks :=
      (hGreedy.carried .left).symm.trans (hTaken .left marks)
    have hRight : bs = taken .right [(side, z)] ++ taken .right marks :=
      (hGreedy.carried .right).symm.trans (hTaken .right marks)
    refine ⟨taken .left marks, taken .right marks, hLeft, hRight, ?_, ?_, ?_⟩
    · intro x y hx hy
      exact hGreedy.greedy 0 side z x y rfl hx hy
    · intro other
      cases other <;> rfl
    · intro p other w x y hMark hx hy
      apply hGreedy.greedy (p + 1) other w x y hMark
      · rw [hLeft, hIndex]
        exact hx
      · rw [hRight, hIndex]
        exact hy
  · rintro ⟨restA, restB, rfl, rfl, hHead, hGreedy⟩
    constructor
    case carried =>
      intro other
      rw [hTaken, hGreedy.carried]
      cases other <;> rfl
    case greedy =>
      intro p other w x y hMark hx hy
      cases p with
      | zero =>
          cases hMark
          exact hHead x y hx hy
      | succ p =>
          rw [hIndex] at hx hy
          exact hGreedy.greedy p other w x y hMark hx hy

/-- One cannot begin on the left and another one on the right, since both lists have
a first element then and the comparison decides. -/
theorem GreedyMerge.not_apart {x y : α} (hLeft : GreedyMerge cmp as bs ((.left, x) :: marks))
    (hRight : GreedyMerge cmp as bs ((.right, y) :: others)) : False := by
  obtain ⟨restA, restB, hx, -, hHead, -⟩ := greedyMerge_cons_iff.mp hLeft
  obtain ⟨restA', restB', -, hy, hHead', -⟩ := greedyMerge_cons_iff.mp hRight
  have hFirstA : as[0]? = some x := by rw [hx]; rfl
  have hFirstB : bs[0]? = some y := by rw [hy]; rfl
  have hLE : (cmp x y).isLE := (hHead x y hFirstA hFirstB).mp rfl
  cases (hHead' x y hFirstA hFirstB).mpr hLE

theorem GreedyMerge.unique (hGreedy : GreedyMerge cmp as bs marks)
    (hOther : GreedyMerge cmp as bs others) : marks = others := by
  induction marks generalizing as bs others with
  | nil =>
      obtain ⟨rfl, rfl⟩ := greedyMerge_nil_iff.mp hGreedy
      cases others with
      | nil => rfl
      | cons mark others =>
          obtain ⟨side, z⟩ := mark
          have hNone := hOther.carried side
          rw [taken_cons, if_pos rfl] at hNone
          cases side <;> cases hNone
  | cons mark marks ih =>
      obtain ⟨side, z⟩ := mark
      obtain ⟨restA, restB, hLeft, hRight, -, hLater⟩ := greedyMerge_cons_iff.mp hGreedy
      cases others with
      | nil =>
          obtain ⟨rfl, rfl⟩ := greedyMerge_nil_iff.mp hOther
          cases side <;> simp at hLeft hRight
      | cons mark others =>
          obtain ⟨side', z'⟩ := mark
          obtain ⟨restA', restB', hLeft', hRight', -, hLater'⟩ := greedyMerge_cons_iff.mp hOther
          have hSame : side = side' := by
            cases side <;> cases side'
            · rfl
            · exact (hGreedy.not_apart hOther).elim
            · exact (hOther.not_apart hGreedy).elim
            · rfl
          subst hSame
          cases side
          all_goals
            cases hLeft.symm.trans hLeft'
            cases hRight.symm.trans hRight'
            rw [ih hLater hLater']

end GreedyMerge

theorem course_greedyMerge (cmp : α → α → Ordering) (calls : Nat) (as bs : List α) :
    GreedyMerge cmp as bs
      (course (comparisonProbe none cmp) (fun _ => false) calls as bs).marks := by
  fun_induction course (comparisonProbe none cmp) (fun _ => false) calls as bs with
  | case1 calls => exact greedyMerge_nil_iff.mpr ⟨rfl, rfl⟩
  | case2 calls b bs hBreaks => cases hBreaks
  | case3 calls b bs hBreaks ih =>
      exact greedyMerge_cons_iff.mpr ⟨[], bs, rfl, rfl, by simp, ih⟩
  | case4 calls a as hBreaks => cases hBreaks
  | case5 calls a as hBreaks ih =>
      exact greedyMerge_cons_iff.mpr ⟨as, [], rfl, rfl, by simp, ih⟩
  | case6 calls a as b bs fault hCmp => cases hCmp
  | case7 calls a as b bs order hCmp hLE ih =>
      have hOrder : cmp a b = order := Except.ok.inj hCmp
      refine greedyMerge_cons_iff.mpr ⟨as, b :: bs, rfl, rfl, ?_, ih⟩
      intro x y hx hy
      cases hx
      cases hy
      simp [hOrder, hLE]
  | case8 calls a as b bs order hCmp hGT ih =>
      have hOrder : cmp a b = order := Except.ok.inj hCmp
      refine greedyMerge_cons_iff.mpr ⟨a :: as, bs, rfl, rfl, ?_, ih⟩
      intro x y hx hy
      cases hx
      cases hy
      simp [hOrder, hGT]

/-- The elements of the course are those of the merge, which is never interrupted. -/
theorem map_snd_marks_course (cmp : α → α → Ordering) (calls : Nat) (as bs : List α) :
    (course (comparisonProbe none cmp) (fun _ => false) calls as bs).marks.map Prod.snd =
      merge cmp as bs := by
  have hProbe : comparisonProbe none cmp = .ofAnswers fun _ question =>
      cmp question.1 question.2 := by
    funext call question
    rfl
  have hHalt : (course (comparisonProbe none cmp) (fun _ => false) calls as bs).halt = none := by
    rw [hProbe]
    apply halt_eq_none
  have hAnswered : ∀ call, ∀ a ∈ as, ∀ b ∈ bs,
      (comparisonProbe none cmp).after calls call (a, b) = .ok (cmp a b) := fun _ _ _ _ _ => rfl
  have hOutcome := mergeM_outcome hAnswered
  rw [mergeM_finding_eq_course, Course.outcome, hHalt] at hOutcome
  exact Except.ok.inj hOutcome

/-- The places at which an element of this side stands. -/
def places (side : Side) (marks : List (Side × α)) : List Nat :=
  marks.findIdxs fun mark => mark.1 = side

section Places

variable (side : Side) (marks : List (Side × α))

/-- One more mark in front moves all places on by one. -/
theorem places_cons (mark : Side × α) :
    places side (mark :: marks) =
      if mark.1 = side then 0 :: (places side marks).map (· + 1)
      else (places side marks).map (· + 1) := by
  rw [places, List.findIdxs_cons, List.findIdxs_start]
  simp only [decide_eq_true_eq]
  rfl

theorem map_places :
    (places side marks).map ((marks.map Prod.snd)[·]?) = (taken side marks).map some := by
  induction marks with
  | nil => rfl
  | cons mark marks ih =>
      have hLater : ((places side marks).map (· + 1)).map (((mark :: marks).map Prod.snd)[·]?) =
          (taken side marks).map some := by
        rw [← ih, List.map_map]
        rfl
      rw [places_cons, taken_cons]
      by_cases hSide : mark.1 = side
      · simpa [hSide] using hLater
      · simpa [hSide] using hLater

theorem places_complementary :
    (places .left marks ++ places .right marks).Perm (List.range marks.length) := by
  have hNodup : (places .left marks ++ places .right marks).Nodup := by
    refine List.nodup_append.mpr ⟨List.nodup_findIdxs, List.nodup_findIdxs, ?_⟩
    intro p hp q hq hEq
    subst hEq
    obtain ⟨hLt, hLeft⟩ := List.mem_findIdxs_iff_exists_getElem_pos.mp hp
    obtain ⟨_, hRight⟩ := List.mem_findIdxs_iff_exists_getElem_pos.mp hq
    cases (of_decide_eq_true hLeft).symm.trans (of_decide_eq_true hRight)
  refine (List.perm_ext_iff_of_nodup hNodup List.nodup_range).mpr ?_
  intro p
  simp only [List.mem_append, List.mem_range, places, List.mem_findIdxs_iff_exists_getElem_pos]
  constructor
  · rintro (⟨hLt, -⟩ | ⟨hLt, -⟩) <;> exact hLt
  · intro hLt
    cases hSide : marks[p].1 with
    | left => exact .inl ⟨hLt, by simp [hSide]⟩
    | right => exact .inr ⟨hLt, by simp [hSide]⟩

end Places

/-- Two increasing sequences of places that share none and leave none out, and at which
the first list stands in its order and the second one in its own. -/
structure Interleaves (ys as bs : List α) (lefts rights : List Nat) : Prop where
  lefts_increase : lefts.Pairwise (· < ·)
  rights_increase : rights.Pairwise (· < ·)
  complementary : (lefts ++ rights).Perm (List.range ys.length)
  left : lefts.map (ys[·]?) = as.map some
  right : rights.map (ys[·]?) = bs.map some

theorem GreedyMerge.interleaves {cmp : α → α → Ordering} {as bs : List α}
    {marks : List (Side × α)} (hGreedy : GreedyMerge cmp as bs marks) :
    Interleaves (marks.map Prod.snd) as bs (places .left marks) (places .right marks) := by
  constructor
  case lefts_increase => exact List.pairwise_findIdxs
  case rights_increase => exact List.pairwise_findIdxs
  case complementary =>
    rw [List.length_map]
    exact places_complementary marks
  case left => rw [map_places, hGreedy.carried]; rfl
  case right => rw [map_places, hGreedy.carried]; rfl

theorem Interleaves.length_eq {ys as bs : List α} {lefts rights : List Nat}
    (hInterleaves : Interleaves ys as bs lefts rights) : ys.length = as.length + bs.length := by
  have hAll := hInterleaves.complementary.length_eq
  have hLeft := congrArg List.length hInterleaves.left
  have hRight := congrArg List.length hInterleaves.right
  simp only [List.length_append, List.length_range, List.length_map] at hAll hLeft hRight
  omega

/-- A merge reports the one greedy interleaving of its lists. -/
theorem merge_greedyInterleaving (τ : Type) (cmp : α → α → Ordering) (generator : Generator)
    (left right : Stored α) :
    ∃ marks : List (Side × α),
      let ys := marks.map Prod.snd
      (mergeReport τ cmp generator left right).outcome = .ok (.list (.ofList ys)) ∧
      ys.length = left.items.length + right.items.length ∧
      Interleaves ys left.items right.items (places .left marks) (places .right marks) ∧
      GreedyMerge cmp left.items right.items marks ∧
      (∀ others, GreedyMerge cmp left.items right.items others → others = marks) ∧
      (Stored.ofList ys = none ↔ left.items = [] ∧ right.items = []) := by
  have hGreedy := course_greedyMerge cmp 0 left.items right.items
  have hInterleaves := hGreedy.interleaves
  refine ⟨_, ?_, hInterleaves.length_eq, hInterleaves, hGreedy, ?_, ?_⟩
  · rw [mergeReport_outcome, map_snd_marks_course]
  · intro others hOther
    exact hOther.unique hGreedy
  · rw [Stored.ofList_eq_none_iff, ← List.length_eq_zero_iff, hInterleaves.length_eq,
      Nat.add_eq_zero_iff, List.length_eq_zero_iff, List.length_eq_zero_iff]

end Sequences
