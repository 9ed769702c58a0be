import Mathlib.Data.Finset.Basic
import Mathlib.Data.Finset.Lattice.Lemmas

/-!
# Chains of segments

A chain cuts an interval into segments. Each segment starts at its own bound and
ends where the next one starts, the last one at the end of the interval, and
holds a list of contents at a footprint of its own. Chains are cut and joined
like the lists that describe them, so one segment is replaced by several without
touching the others. The library is used for the children of a tree node, whose
separators are the bounds.
-/
namespace LionFS
open List Finset
variable {β ι α : Type*}

/-- Where the first segment of a list starts, or the end of the interval. -/
def headOr (hi : β) : List (β × ι) → β
  | [] => hi
  | segment :: _ => segment.1

/-- The first key of two chains. -/
theorem headOr_append (hi : β) (first second : List (β × ι)) :
    headOr hi (first ++ second) = headOr (headOr hi second) first := by
  cases first <;> rfl

variable [LinearOrder β] [DecidableEq ι]

/-- The segments of an interval, with the contents and the footprint of each. -/
inductive Chain (R : β → β → ι → List α → Finset ι → Prop) :
    List (β × ι) → β → List α → Finset ι → Prop where
  | nil (hi : β) : Chain R [] hi [] ∅
  | cons (lo : β) (place : ι) (rest : List (β × ι)) (hi : β) (here later : List α)
      (own others : Finset ι) (segment : R lo (headOr hi rest) place here own)
      (increasing : lo < headOr hi rest) (apart : Disjoint own others)
      (tail : Chain R rest hi later others) :
      Chain R ((lo, place) :: rest) hi (here ++ later) (own ∪ others)

namespace Chain
variable {R S : β → β → ι → List α → Finset ι → Prop} {contents : List α} {own : Finset ι}

/-- One segment is a chain. -/
theorem single {lo hi : β} {place : ι} (segment : R lo hi place contents own)
    (lt : lo < hi) : Chain R [(lo, place)] hi contents own := by
  have chain := Chain.cons lo place [] hi contents [] own ∅ segment lt
    (disjoint_empty_right own) (.nil hi)
  rwa [append_nil, union_empty] at chain

variable {hi : β}

/-- Two chains are joined where the first ends and the second starts. -/
theorem append {first second : List (β × ι)} {more : List α} {others : Finset ι}
    (left : Chain R first (headOr hi second) contents own) (right : Chain R second hi more others)
    (apart : Disjoint own others) :
    Chain R (first ++ second) hi (contents ++ more) (own ∪ others) := by
  generalize meet : headOr hi second = bound at left
  induction left with
  | nil => simpa using right
  | cons lo place rest bound here later mine theirs segment lt separate tail ih =>
    subst meet
    rw [disjoint_union_left] at apart
    rw [append_assoc, union_assoc, cons_append]
    refine .cons lo place _ hi here _ mine _ ?_ ?_ ?_ (ih apart.2 rfl)
    · rwa [headOr_append]
    · rwa [headOr_append]
    · exact disjoint_union_right.mpr ⟨separate, apart.1⟩

/-- A chain is cut anywhere. -/
theorem split {first second : List (β × ι)} (chain : Chain R (first ++ second) hi contents own) :
    ∃ front back mine theirs, contents = front ++ back ∧ own = mine ∪ theirs ∧
      Disjoint mine theirs ∧ Chain R first (headOr hi second) front mine ∧
      Chain R second hi back theirs := by
  induction first generalizing contents own with
  | nil => exact ⟨[], contents, ∅, own, rfl, by simp, by simp, .nil _, chain⟩
  | cons segment first ih =>
    rw [cons_append] at chain
    cases chain with
    | cons lo place rest hi here later mine others here_segment lt separate tail =>
      obtain ⟨front, back, left, right, rfl, rfl, apart, one, two⟩ := ih tail
      rw [disjoint_union_right] at separate
      rw [headOr_append] at here_segment lt
      refine ⟨here ++ front, back, mine ∪ left, right, by simp, by rw [union_assoc], ?_,
        .cons lo place first _ here front mine left here_segment lt separate.1 one, two⟩
      exact disjoint_union_left.mpr ⟨separate.2, apart⟩

/-- The first segment of a chain. -/
theorem uncons {lo : β} {place : ι} {rest : List (β × ι)}
    (chain : Chain R ((lo, place) :: rest) hi contents own) :
    ∃ here later mine others, contents = here ++ later ∧ own = mine ∪ others ∧
      Disjoint mine others ∧ lo < headOr hi rest ∧ R lo (headOr hi rest) place here mine ∧
      Chain R rest hi later others := by
  cases chain with
  | cons _ _ _ _ here later mine others segment lt separate tail =>
    exact ⟨here, later, mine, others, rfl, rfl, separate, lt, segment, tail⟩

variable {segments : List (β × ι)}
section
variable (chain : Chain R segments hi contents own)
include chain

/-- The segments may be read by another relation that each of them satisfies. -/
theorem imp (each : ∀ lo top place here mine, mine ⊆ own → R lo top place here mine →
      S lo top place here mine) : Chain S segments hi contents own := by
  induction chain with
  | nil hi => exact .nil hi
  | cons lo place rest hi here later mine others segment lt separate tail ih =>
    refine .cons lo place rest hi here later mine others ?_ lt separate ?_
    · exact each lo _ place here mine subset_union_left segment
    · exact ih fun lo top place here part mem =>
        each lo top place here part (mem.trans subset_union_right)

/-- A chain ends after it starts. -/
theorem headOr_le : headOr hi segments ≤ hi := by
  induction chain with
  | nil hi => exact le_rfl
  | cons lo place rest hi here later mine others segment lt separate tail ih =>
    exact lt.le.trans ih

/-- Segments start between the ends of the chain. -/
theorem le_of_mem : ∀ segment ∈ segments, headOr hi segments ≤ segment.1 ∧ segment.1 < hi := by
  induction chain with
  | nil hi => simp
  | cons lo place rest hi here later mine others segment lt separate tail ih =>
    refine forall_mem_cons.mpr ⟨⟨le_rfl, lt.trans_le tail.headOr_le⟩, fun other inside => ?_⟩
    exact (ih other inside).imp_left lt.le.trans

/-- Segments ascend. -/
theorem ascending : segments.Pairwise fun first second => first.1 < second.1 := by
  induction chain with
  | nil hi => exact List.Pairwise.nil
  | cons lo place rest hi here later mine others segment lt separate tail ih =>
    refine pairwise_cons.mpr ⟨fun other mem => ?_, ih⟩
    exact lt.trans_le (tail.le_of_mem other mem).1

/-- Every segment is related to its contents and its footprint. -/
theorem forall_mem :
    ∀ segment ∈ segments, ∃ top here mine, top ≤ hi ∧ mine ⊆ own ∧
      R segment.1 top segment.2 here mine := by
  induction chain with
  | nil hi => simp
  | cons lo place rest hi here later mine others segment lt separate tail ih =>
    refine forall_mem_cons.mpr
      ⟨⟨_, here, mine, tail.headOr_le, subset_union_left, segment⟩, fun other inside => ?_⟩
    obtain ⟨top, some_here, part, ends, within, related⟩ := ih other inside
    exact ⟨top, some_here, part, ends, within.trans subset_union_right, related⟩

/-- An item lies in some segment. -/
theorem exists_of_mem {item : α} (mem : item ∈ contents) :
    ∃ front lo place back left here right leftOwn mine rightOwn,
      segments = front ++ (lo, place) :: back ∧ contents = left ++ (here ++ right) ∧
      own = leftOwn ∪ (mine ∪ rightOwn) ∧ Disjoint leftOwn (mine ∪ rightOwn) ∧
      Disjoint mine rightOwn ∧ Chain R front lo left leftOwn ∧
      R lo (headOr hi back) place here mine ∧ lo < headOr hi back ∧
      Chain R back hi right rightOwn ∧ item ∈ here := by
  induction chain with
  | nil hi => simp at mem
  | cons lo place rest hi here later mine others segment lt separate tail ih =>
    rcases mem_append.mp mem with first | second
    · exact ⟨[], lo, place, rest, [], here, later, ∅, mine, others, rfl, rfl, by simp, by simp,
        separate, .nil lo, segment, lt, tail, first⟩
    · obtain ⟨front, start, at_, back, left, found, right, leftOwn, part, rightOwn, rfl, rfl, rfl,
        apart, apart_right, prior, related, above, remaining, inside⟩ := ih second
      rw [disjoint_union_right] at separate
      rw [headOr_append] at segment lt
      refine ⟨(lo, place) :: front, start, at_, back, here ++ left, found, right, mine ∪ leftOwn,
        part, rightOwn, rfl, by simp, by rw [union_assoc], ?_, apart_right, ?_, related,
        above, remaining, inside⟩
      · exact disjoint_union_left.mpr ⟨separate.2, apart⟩
      · exact .cons lo place front start here left mine leftOwn segment lt separate.1 prior

/-- Bounds of the items of each segment bound all. -/
theorem bounded (within : β → β → α → Prop)
    (widen : ∀ lo lo' top top' item, lo ≤ lo' → top' ≤ top → within lo' top' item →
      within lo top item) (each : ∀ lo top place here mine, R lo top place here mine →
      ∀ item ∈ here, within lo top item) :
    ∀ item ∈ contents, within (headOr hi segments) hi item := by
  induction chain with
  | nil hi => simp
  | cons lo place rest hi here later mine others segment lt separate tail ih =>
    refine forall_mem_append.mpr ⟨fun item first => ?_, fun item second => ?_⟩
    · exact widen _ _ _ _ _ le_rfl tail.headOr_le (each _ _ _ _ _ segment item first)
    · exact widen _ _ _ _ _ lt.le le_rfl (ih item second)

/-- Items are sorted if those of each segment are. -/
theorem sorted (within : β → β → α → Prop) (rel : α → α → Prop)
    (widen : ∀ lo lo' top top' item, lo ≤ lo' → top' ≤ top → within lo' top' item →
      within lo top item)
    (ordered : ∀ lo middle top first second, within lo middle first → within middle top second →
      rel first second) (each : ∀ lo top place here mine, R lo top place here mine →
      here.Pairwise rel ∧ ∀ item ∈ here, within lo top item) : contents.Pairwise rel := by
  induction chain with
  | nil hi => exact List.Pairwise.nil
  | cons lo place rest hi here later mine others segment lt separate tail ih =>
    obtain ⟨inner, mem⟩ := each _ _ _ _ _ segment
    refine pairwise_append.mpr ⟨inner, ih, fun first one second two => ?_⟩
    have above := tail.bounded within widen
      (fun lo top place here mine held => (each _ _ _ _ _ held).2) second two
    exact ordered _ _ _ _ _ (mem first one) above

end
end Chain
end LionFS
