import ArithTree.Proofs.Conservation
import ArithTree.Proofs.Copies

/-!
# Traversals of any store without circles

The loops keep a stack of handles, and nothing in a store forbids shared nodes, links to removed
nodes or a root that is gone. As long as child links from the root close no circle, they unfold into
a finite tree with these as repeated and as dangling occurrences, and a handle on the stack stands
for the traversal of what is below it (`preorderFrom_cons`, `postorderFrom_enter`). So each loop
gives what recursion on the unfolding gives, and the dump, the literals and the depth can be told
from one list, the live occurrences in preorder with their levels (`traversals_agree`).
-/

namespace ArithTree

namespace Unfolding

mutual

/-- The live occurrences in preorder, each with its level and its handle. -/
def visits (level : Nat) : Unfolding → List (Nat × NodeId)
  | .dangling _ => []
  | .node id _ below => (level, id) :: visitsAll (level + 1) below

def visitsAll (level : Nat) : List Unfolding → List (Nat × NodeId)
  | [] => []
  | u :: rest => u.visits level ++ visitsAll level rest

end

mutual

theorem map_snd_visits : ∀ (u : Unfolding) (level : Nat),
    (u.visits level).map Prod.snd = u.preorder
  | .dangling _, _ => rfl
  | .node id _ below, level => by
    rw [visits, List.map_cons, map_snd_visitsAll below, preorder]

theorem map_snd_visitsAll : ∀ (us : List Unfolding) (level : Nat),
    (visitsAll level us).map Prod.snd = preorderAll us
  | [], _ => rfl
  | u :: rest, level => by
    rw [visitsAll, List.map_append, map_snd_visits u, map_snd_visitsAll rest, preorderAll]

end

/-! ## Levels and height -/

mutual

/-- No occurrence is deeper than the height. -/
theorem lt_height_of_mem_visits : ∀ (u : Unfolding) {level : Nat}, ∀ visit ∈ u.visits level,
    visit.1 < level + u.height
  | .dangling _, _, _, h => by cases h
  | .node _ _ below, level, visit, h => by
    rw [height]
    rcases List.mem_cons.mp h with rfl | h
    · exact Nat.lt_add_of_pos_right (by omega)
    · have hbelow := lt_heightAll_of_mem_visitsAll below visit h
      omega

theorem lt_heightAll_of_mem_visitsAll : ∀ (us : List Unfolding) {level : Nat},
    ∀ visit ∈ visitsAll level us, visit.1 < level + heightAll us
  | [], _, _, h => by cases h
  | u :: rest, level, visit, h => by
    rw [heightAll]
    rcases List.mem_append.mp h with h | h
    · have hu := lt_height_of_mem_visits u visit h
      omega
    · have hrest := lt_heightAll_of_mem_visitsAll rest visit h
      omega

end

mutual

/-- Where nothing dangles, a longest way down ends at a live occurrence. -/
theorem exists_deepest : ∀ u : Unfolding, u.Whole → ∀ level : Nat,
    ∃ visit ∈ u.visits level, visit.1 + 1 = level + u.height
  | .dangling _, h, _ => h.elim
  | .node id _ below, h, level => by
    rw [height]
    by_cases hleaf : below = []
    · subst hleaf
      exact ⟨(level, id), List.mem_cons_self .., rfl⟩
    · obtain ⟨visit, hvisit, hlevel⟩ := exists_deepestAll below h hleaf (level + 1)
      exact ⟨visit, List.mem_cons_of_mem _ hvisit, by omega⟩

theorem exists_deepestAll : ∀ us : List Unfolding, WholeAll us → us ≠ [] → ∀ level : Nat,
    ∃ visit ∈ visitsAll level us, visit.1 + 1 = level + heightAll us
  | [], _, hne, _ => (hne rfl).elim
  | u :: rest, h, _, level => by
    rw [visitsAll, heightAll]
    by_cases hu : heightAll rest ≤ u.height
    · obtain ⟨visit, hvisit, hlevel⟩ := exists_deepest u h.1 level
      exact ⟨visit, List.mem_append_left _ hvisit, by rw [hlevel, Nat.max_eq_left hu]⟩
    · have hne : rest ≠ [] := by
        rintro rfl
        exact hu (Nat.zero_le _)
      obtain ⟨visit, hvisit, hlevel⟩ := exists_deepestAll rest h.2 hne level
      exact ⟨visit, List.mem_append_right _ hvisit, by rw [hlevel, Nat.max_eq_right (by omega)]⟩

end

/-- Where nothing dangles, the height is one more than the largest level. -/
theorem Whole.max?_levels {u : Unfolding} (h : u.Whole) :
    ∃ deepest, ((u.visits 0).map Prod.fst).max? = some deepest ∧ u.height = deepest + 1 := by
  obtain ⟨visit, hvisit, hlevel⟩ := exists_deepest u h 0
  refine ⟨visit.1, List.max?_eq_some_iff.mpr ⟨List.mem_map_of_mem hvisit, fun level hmem => ?_⟩,
    by omega⟩
  obtain ⟨other, hother, rfl⟩ := List.mem_map.mp hmem
  have hlt := lt_height_of_mem_visits u other hother
  omega

end Unfolding

namespace Store

open Unfolding hiding id children size formula dump preorder postorder

section

variable {s : Store}

/-! ## What is met on the way -/

/-- The entry that a dump has for a visit, if the node is live. -/
def entry? (s : Store) (visit : Nat × NodeId) : Option (Nat × Label) :=
  (s.label? visit.2).map (visit.1, ·)

/-- Entries keep the levels of their visits. -/
theorem map_fst_entries : ∀ {entries : List (Nat × Label)} {visited : List (Nat × NodeId)},
    entries.map some = visited.map s.entry? → entries.map Prod.fst = visited.map Prod.fst
  | [], [], _ => rfl
  | entry :: entries, visit :: visited, h => by
    rw [List.map_cons, List.map_cons, List.cons.injEq] at h
    obtain ⟨label, -, hentry⟩ := Option.map_eq_some_iff.mp h.1.symm
    rw [List.map_cons, List.map_cons, map_fst_entries h.2, ← hentry]

mutual

/-- The outline lists the entries of the visits. -/
theorem Reads.outline_eq : ∀ (u : Unfolding) {t : Shape} (level : Nat), s.Reads u →
    u.shape? = some t → (t.outline level).map some = (u.visits level).map s.entry?
  | .dangling _, _, _, _, ht => by cases ht
  | .node id label below, t, level, h, ht => by
    obtain ⟨⟨up, hn⟩, hbelow⟩ := h
    rw [Unfolding.shape?, Option.some.injEq] at ht
    rw [← ht, Shape.outline, visits, List.map_cons, List.map_cons,
      ReadsAll.outline_eq below (level + 1) hbelow, entry?, label?_of_node? hn, Option.map_some]

theorem ReadsAll.outline_eq : ∀ (us : List Unfolding) (level : Nat), s.ReadsAll us →
    (Shape.outlineAll level (shapes us)).map some = (visitsAll level us).map s.entry?
  | [], _, _ => rfl
  | .dangling _ :: rest, level, h => ReadsAll.outline_eq rest level h.2
  | .node id label below :: rest, level, h => by
    have htop := Reads.outline_eq (.node id label below) level h.1 rfl
    rw [shapes, Unfolding.shape?, Shape.outlineAll, visitsAll, List.map_append, List.map_append,
      htop, ReadsAll.outline_eq rest level h.2]

end

/-! ## Whole runs -/

variable {root : NodeId}

theorem Acyclic.preorderFrom_eq (h : s.Acyclic root) {steps : Nat}
    (hsteps : (s.unfold root).size ≤ steps) :
    s.preorderFrom steps [root] = (s.unfold root).preorder := by
  have hrun := h.reads_unfold.preorderFrom_eq hsteps
  rwa [unfold_id] at hrun

theorem Acyclic.postorderFrom_eq (h : s.Acyclic root) {steps : Nat}
    (hsteps : 2 * (s.unfold root).size ≤ steps) :
    s.postorderFrom steps [.enter root] = (s.unfold root).postorder := by
  have hrun := h.reads_unfold.postorderFrom_eq hsteps
  rwa [unfold_id] at hrun

theorem Acyclic.preorder_eq (h : s.Acyclic root) (hroot : s.root = some root) :
    s.preorder = (s.unfold root).preorder := by
  simp only [Store.preorder, hroot]
  exact h.preorderFrom_eq (Nat.le_refl _)

theorem Acyclic.postorder_eq (h : s.Acyclic root) (hroot : s.root = some root) :
    s.postorder = (s.unfold root).postorder := by
  simp only [Store.postorder, hroot]
  exact h.postorderFrom_eq (Nat.le_refl _)

/-- The dump has a line for each visit. -/
theorem Acyclic.exists_entries (h : s.Acyclic root) (hroot : s.root = some root) :
    ∃ entries : List (Nat × Label), s.dump.toList = lines entries ∧
      entries.map some = ((s.unfold root).visits 0).map s.entry? := by
  have hentries := ReadsAll.outline_eq [s.unfold root] 0 ⟨h.reads_unfold, trivial⟩
  rw [visitsAll, visitsAll, List.append_nil] at hentries
  refine ⟨_, ?_, hentries⟩
  rw [← dumpAll_of_shapes, dumpAll, dumpAll, String.append_empty]
  simp only [Store.dump, hroot, dumpOf]

end

/-- **The loops agree with recursion.** Let child links from the root close no circle; nodes may be
shared, children may be removed ones, and so may the root. Then following child links comes to an
end at the leaves of the unfolding. The loop of each traversal, run for long enough, gives the
recursive order of the live occurrences. The lines of the dump are the entries of these occurrences
in preorder, each with the level where it occurs, and the literals are those met from left to right.
If the root is live and no link below it dangles, the depth is one more than the largest level in
the dump. -/
theorem traversals_agree (s : Store) :
    (s.root = none → s.preorder = [] ∧ s.postorder = [] ∧ s.dump = "" ∧ s.literals = [] ∧
      s.depth = 0) ∧
    ∀ root, s.root = some root → s.Acyclic root →
      s.Reads (s.unfold root) ∧
      s.preorder = (s.unfold root).preorder ∧
      (∀ steps, (s.unfold root).size ≤ steps → s.preorderFrom steps [root] = s.preorder) ∧
      s.postorder = (s.unfold root).postorder ∧
      (∀ steps, 2 * (s.unfold root).size ≤ steps →
        s.postorderFrom steps [.enter root] = s.postorder) ∧
      s.literals = Shape.literalsAll (shapes [s.unfold root]) ∧
      ∃ entries : List (Nat × Label), s.dump.toList = lines entries ∧
        entries.map some = ((s.unfold root).visits 0).map s.entry? ∧
        ((s.unfold root).visits 0).map Prod.snd = s.preorder ∧
        (s.contains root = true →
          (∀ p c, s.Below root p → c ∈ s.children p → s.contains c = true) →
            ∃ deepest, (entries.map Prod.fst).max? = some deepest ∧ s.depth = deepest + 1) := by
  constructor
  · intro hroot
    simp [Store.preorder, Store.postorder, Store.dump, Store.literals, Store.depth, hroot]
  · intro root hroot h
    have hpre := h.preorder_eq hroot
    have hpost := h.postorder_eq hroot
    obtain ⟨entries, hdump, hentries⟩ := h.exists_entries hroot
    refine ⟨h.reads_unfold, hpre, fun steps hsteps => ?_, hpost, fun steps hsteps => ?_, ?_,
      entries, hdump, hentries, ?_, fun hlive hlisted => ?_⟩
    · rw [h.preorderFrom_eq hsteps, hpre]
    · rw [h.postorderFrom_eq hsteps, hpost]
    · have hliterals := ReadsAll.filterMap_literal? [s.unfold root] ⟨h.reads_unfold, trivial⟩
      rwa [preorderAll, preorderAll, List.append_nil, ← hpre] at hliterals
    · rw [map_snd_visits, hpre]
    · obtain ⟨deepest, hmax, hheight⟩ := (h.whole hlive hlisted).max?_levels
      refine ⟨deepest, ?_, by simp only [Store.depth, hroot, hheight]⟩
      rw [map_fst_entries hentries, hmax]

/-- A sum with one product twice, which has one name twice. -/
def repeated : Store where
  slots := #[some ⟨.compound .add, none, [1, 1, 2]⟩, some ⟨.compound .multiply, some 0, [2, 2]⟩,
    some ⟨.literal ⟨"a", .identifier 'a', ofToken?_a⟩, some 1, []⟩]
  root := some 0
  ghost := none

theorem children_repeated :
    ∀ p ∈ [0, 1, 2], ∀ c ∈ repeated.children p, c ∈ [0, 1, 2] ∧ p < c := by decide

/-- With a child that is gone the loops pass over it; with all children live the depth is told from
the dump. -/
theorem traversals_agree_repeated :
    (let s : Store := { tangle with root := some 0 }
     s.Acyclic 0 ∧ s.preorder = [0, 1, 2, 1, 2, 2] ∧ s.postorder = [2, 1, 2, 1, 2, 0]) ∧
    repeated.Acyclic 0 ∧ repeated.preorder = [0, 1, 2, 2, 1, 2, 2, 2] ∧ repeated.depth = 3 := by
  obtain ⟨-, hpre, -, hpost, -⟩ :=
    (traversals_agree { tangle with root := some 0 }).2 0 rfl acyclic_tangle
  have hacyclic : repeated.Acyclic 0 := acyclic_of_lt [0, 1, 2] (by decide) children_repeated
  obtain ⟨-, hpre', -, -, -, -, entries, -, hentries, -, hdepth⟩ :=
    (traversals_agree repeated).2 0 rfl hacyclic
  have hlive : ∀ c ∈ [0, 1, 2], repeated.contains c = true := by decide
  obtain ⟨deepest, hmax, hheight⟩ := hdepth rfl fun p c hp hc =>
    hlive c (children_repeated p (hp.mem_and_le children_repeated (by decide)).1 c hc).1
  have hlevels : (entries.map Prod.fst).max? = some 2 := by
    rw [map_fst_entries hentries]
    decide +kernel
  rw [hmax, Option.some.injEq] at hlevels
  exact ⟨⟨acyclic_tangle, hpre, hpost⟩, hacyclic, hpre', by rw [hheight, hlevels]⟩

end Store

end ArithTree
