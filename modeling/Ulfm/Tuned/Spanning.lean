import Ulfm.Tuned.Binomial
import Ulfm.Tuned.Chain
import Ulfm.Tuned.KaryTree

/-!
# The topologies are trees

The processes compute their places independently. All the builders agree on one tree
with the given root, except that the tree with the fanout `1` divides by zero as soon as
there are two processes, and that their numbers leave the range of an `int` in very large
communicators.
-/

namespace Ulfm

variable {fanout size root : ℕ}

theorem VirtualTree.exists_spanningViews {parent : ℕ → ℕ} {children : ℕ → List ℕ}
    (h : VirtualTree size parent children) (hroot : root < size) {build : ℕ → Option NodeView}
    (hbuild : ∀ rank < size, ∃ prev : ℤ, build rank = some
      ⟨prev, (children (shiftedRank size root rank)).map (rotate size root)⟩ ∧
      (rank ≠ root → prev = rotate size root (parent (shiftedRank size root rank)))) :
    ∃ view : ℕ → NodeView, (∀ rank < size, build rank = some (view rank)) ∧
      SpanningViews size root view := by
  choose! prev hview hprev using hbuild
  refine ⟨_, hview, h.spanningViews hroot (fun v hv => ?_) fun v hv hne => ?_⟩
  · simp only [shiftedRank_rotate hroot hv]
  · have hne' : rotate size root v ≠ root := fun heq => hne ((rotate_eq_root_iff hroot hv).1 heq)
    rw [hprev _ (rotate_lt (by omega) v) hne', shiftedRank_rotate hroot hv]

theorem buildTree_single (hf : 1 ≤ fanout) (hmax : fanout ≤ maxTreeFanout) (rank : ℕ) :
    buildTree fanout 1 0 rank = some ⟨-1, []⟩ := by
  rw [buildTree, if_neg (by omega), if_neg (by omega), if_pos (by omega)]

theorem buildTree_one_eq_none (hsize : 2 ≤ size) (rank : ℕ) :
    buildTree 1 size root rank = none := by
  have hnodes (level : ℕ) : calculateNumNodesUpToLevel 1 level = none := if_pos rfl
  rw [buildTree, if_neg (by decide), if_neg (by decide), if_neg (by omega)]
  simp only [hnodes, Option.bind_eq_bind, Option.bind_none, Option.bind_fun_none]

/-- The numbers of all the processes are `int`s, and none divides by zero. -/
def TopoBuilder.Fits (b : TopoBuilder) (size root : ℕ) : Prop :=
  match b with
  | tree fanout => size < 2 ∨ fanout ≠ 1 ∧ size - 1 + root < 2 ^ 31 ∧
      ∀ l, levelStart fanout l ≤ size - 1 → size - 1 + fanout ^ l < 2 ^ 31
  | bmtree | inOrderBmtree => size ≤ 2 ^ 30
  | chain fanout => ChainFits fanout size root

section

variable {b : TopoBuilder} {uninitialized : ℕ → ℤ}

theorem TopoBuilder.exists_none (hb : b.Accepts) (uninitialized : ℕ → ℤ) (hroot : root < size)
    (hfits : ¬b.Fits size root) :
    ∃ rank < size, b.build (uninitialized rank) size root rank = none := by
  cases b with
  | tree fanout =>
    obtain ⟨hf, hmax⟩ := hb
    obtain ⟨hsize, hnot⟩ := not_or.1 hfits
    by_cases hone : fanout = 1
    · subst hone
      exact ⟨root, hroot, buildTree_one_eq_none (not_lt.1 hsize) root⟩
    · by_cases hsum : size - 1 + root < 2 ^ 31
      · have hlevel : ¬∀ l, levelStart fanout l ≤ size - 1 → size - 1 + fanout ^ l < 2 ^ 31 :=
          fun hlevels => hnot ⟨hone, hsum, hlevels⟩
        push Not at hlevel
        obtain ⟨l, hl, hge⟩ := hlevel
        exact exists_buildTree_eq_none_of_level (by omega) hmax (not_lt.1 hsize) hroot hl hge
      · exact exists_buildTree_eq_none_of_sum (by omega) hmax (not_lt.1 hsize) hroot
          (not_lt.1 hsum)
  | bmtree => exact exists_buildBmtree_eq_none hroot (not_le.1 hfits)
  | inOrderBmtree => exact ⟨root, hroot, buildInOrderBmtree_eq_none _ (not_le.1 hfits)⟩
  | chain fanout =>
    obtain ⟨hf, hmax⟩ := hb
    by_cases hsum : size - 1 + root < 2 ^ 31
    · have hproduct : ¬(min fanout (size - 1) ≠ 1 → (size - 1) % min fanout (size - 1) = 0 →
          size - 1 + (size - 1) / min fanout (size - 1) < 2 ^ 31) :=
        fun hproduct => hfits ⟨hsum, hproduct⟩
      push Not at hproduct
      obtain ⟨hne, hmod, hge⟩ := hproduct
      exact exists_buildChain_eq_none_of_product hroot hf hmax hne hmod hge
    · exact exists_buildChain_eq_none_of_sum hroot hf hmax (not_lt.1 hsum)

theorem TopoBuilder.Fits.spans (hfits : b.Fits size root) (hb : b.Accepts) (hroot : root < size) :
    ∃ view : ℕ → NodeView,
      (∀ rank < size, b.build (uninitialized rank) size root rank = some (view rank)) ∧
        SpanningViews size root view := by
  cases b with
  | tree fanout =>
    obtain ⟨hf, hmax⟩ := hb
    rcases Nat.lt_or_ge size 2 with h1 | h2
    · obtain rfl : size = 1 := by omega
      obtain rfl : root = 0 := by omega
      refine (virtualTree_pipeline 1).exists_spanningViews hroot fun rank hrank => ?_
      exact ⟨-1, buildTree_single hf hmax rank, fun hne => absurd (by omega) hne⟩
    · obtain ⟨hne, hsum, hlevels⟩ := hfits.resolve_left h2.not_gt
      refine (virtualTree_kary hf size).exists_spanningViews hroot fun rank hrank => ?_
      exact ⟨_, buildTree_eq (by omega) hmax h2 hroot hrank hsum hlevels, fun _ => rfl⟩
  | bmtree =>
    exact (virtualTree_bm size).exists_spanningViews hroot fun _ hrank =>
      buildBmtree_eq hroot hrank hfits
  | inOrderBmtree =>
    exact (virtualTree_inOrder size).exists_spanningViews hroot fun _ hrank =>
      buildInOrderBmtree_eq hroot hrank hfits
  | chain fanout =>
    obtain ⟨parent, children, htree, hbuild⟩ := exists_buildChain_eq hroot hb.1 hb.2 hfits
    exact htree.exists_spanningViews hroot hbuild

end

/-- The builders compute one tree with the given root at all the processes if and only if
their numbers are `int`s and they are not asked for the fanout `1`. -/
theorem builders_span (b : TopoBuilder) (hb : b.Accepts) (uninitialized : ℕ → ℤ) (size root : ℕ)
    (hroot : root < size) :
    (∃ view : ℕ → NodeView,
      (∀ rank < size, b.build (uninitialized rank) size root rank = some (view rank)) ∧
        SpanningViews size root view) ↔ b.Fits size root := by
  constructor
  · rintro ⟨view, hview, -⟩
    by_contra hfits
    obtain ⟨rank, hrank, hnone⟩ := TopoBuilder.exists_none hb uninitialized hroot hfits
    rw [hview rank hrank] at hnone
    cases hnone
  · exact fun hfits => hfits.spans hb hroot

/-- Chains of length two and one behind the root `1`. -/
theorem builders_span_chain :
    ∃ view : ℕ → NodeView, (∀ rank < 4, buildChain 2 4 1 rank = some (view rank)) ∧
      SpanningViews 4 1 view :=
  (builders_span (.chain 2) (by decide) (fun _ => 0) 4 1 (by decide)).2
    ⟨by decide, by decide⟩

/-- A tree with the fanout `1` of two processes. -/
theorem tree_of_fanout_one : TopoBuilder.Accepts (.tree 1) ∧
      ¬∃ view : ℕ → NodeView, (∀ rank < 2, buildTree 1 2 0 rank = some (view rank)) ∧
        SpanningViews 2 0 view := by
  refine ⟨by decide, ?_⟩
  rintro ⟨view, hview, -⟩
  have hnone : buildTree 1 2 0 0 = none := by decide
  rw [hview 0 (by decide)] at hnone
  cases hnone

end Ulfm
