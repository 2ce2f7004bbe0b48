import ArithTree.Proofs.Holding
import ArithTree.Store.Traversal

/-!
# Traversals and unfoldings

What the traversals with an explicit stack visit, said by recursion on the unfolding.
-/

namespace ArithTree

namespace Unfolding

mutual

/-- The handles of the live occurrences, each before what is below it. -/
def preorder : Unfolding → List NodeId
  | .dangling _ => []
  | .node id _ below => id :: preorderAll below

def preorderAll : List Unfolding → List NodeId
  | [] => []
  | u :: rest => u.preorder ++ preorderAll rest

end

mutual

/-- Where nothing dangles, all occurrences are live. -/
theorem preorder_eq_ids : ∀ u : Unfolding, u.Whole → u.preorder = u.ids
  | .dangling _, h => h.elim
  | .node _ _ below, h => by rw [preorder, ids, preorderAll_eq_idsAll below h]

theorem preorderAll_eq_idsAll : ∀ us : List Unfolding, WholeAll us → preorderAll us = idsAll us
  | [], _ => rfl
  | u :: rest, h => by
    rw [preorderAll, idsAll, preorder_eq_ids u h.1, preorderAll_eq_idsAll rest h.2]

end

mutual

/-- The handles of the live occurrences, each after what is below it. -/
def postorder : Unfolding → List NodeId
  | .dangling _ => []
  | .node id _ below => postorderAll below ++ [id]

def postorderAll : List Unfolding → List NodeId
  | [] => []
  | u :: rest => u.postorder ++ postorderAll rest

end

mutual

theorem postorder_subset : ∀ u : Unfolding, u.postorder ⊆ u.ids
  | .dangling _ => List.nil_subset _
  | .node id _ below => fun x hx => by
    rcases List.mem_append.mp hx with hx | hx
    · exact List.mem_cons_of_mem id (postorderAll_subset below hx)
    · exact List.mem_singleton.mp hx ▸ List.mem_cons_self ..

theorem postorderAll_subset : ∀ us : List Unfolding, postorderAll us ⊆ idsAll us
  | [] => List.nil_subset _
  | u :: rest => fun x hx => by
    rcases List.mem_append.mp hx with hx | hx
    · exact List.mem_append_left _ (postorder_subset u hx)
    · exact List.mem_append_right _ (postorderAll_subset rest hx)

end

end Unfolding

open Unfolding hiding id size preorder postorder

namespace Store

/-! ## Preorder -/

mutual

/-- The traversal from a stack with `u` on top goes through `u` and on to the rest. Every occurrence
takes one step. -/
theorem preorderFrom_cons {s : Store} : ∀ (u : Unfolding), s.Reads u →
    ∀ (steps : Nat) (pending : List NodeId), u.size ≤ steps →
      s.preorderFrom steps (u.id :: pending) =
        u.preorder ++ s.preorderFrom (steps - u.size) pending
  | .dangling id, h, steps, pending, hsteps => by
    cases steps with
    | zero => simp [Unfolding.size] at hsteps
    | succ steps =>
      simp only [preorderFrom, Unfolding.id, show s.node? id = none from h, Unfolding.size,
        Unfolding.preorder, Nat.add_sub_cancel, List.nil_append]
  | .node id label below, h, steps, pending, hsteps => by
    obtain ⟨⟨up, hn⟩, hbelow⟩ := h
    rw [Unfolding.size] at hsteps ⊢
    cases steps with
    | zero => omega
    | succ steps =>
      have hleft : steps + 1 - (1 + sizeAll below) = steps - sizeAll below := by omega
      simp only [preorderFrom, Unfolding.id, hn, Unfolding.preorder, List.cons_append]
      rw [preorderFrom_append below hbelow steps pending (by omega), hleft]

theorem preorderFrom_append {s : Store} : ∀ (us : List Unfolding), s.ReadsAll us →
    ∀ (steps : Nat) (pending : List NodeId), sizeAll us ≤ steps →
      s.preorderFrom steps (us.map Unfolding.id ++ pending) =
        preorderAll us ++ s.preorderFrom (steps - sizeAll us) pending
  | [], _, steps, pending, _ => rfl
  | u :: us, h, steps, pending, hsteps => by
    rw [sizeAll] at hsteps
    rw [List.map_cons, List.cons_append, preorderFrom_cons u h.1 steps _ (by omega),
      preorderFrom_append us h.2 _ pending (by omega), preorderAll, List.append_assoc, sizeAll,
      Nat.sub_sub]

end

/-- The traversal of an unfolding that is read from the store ends with an empty stack. -/
theorem Reads.preorderFrom_eq {s : Store} {u : Unfolding} (h : s.Reads u) {steps : Nat}
    (hsteps : u.size ≤ steps) : s.preorderFrom steps [u.id] = u.preorder := by
  rw [preorderFrom_cons u h steps [] hsteps]
  cases steps - u.size <;> simp [preorderFrom]

theorem preorder_eq {s : Store} {up : Option NodeId} {u : Unfolding} (h : s.Holds up u)
    (hnodup : u.ids.Nodup) (hroot : s.root = some u.id) : s.preorder = u.ids := by
  simp only [Store.preorder, hroot, unfold_of_holds h hnodup]
  rw [h.reads.preorderFrom_eq (Nat.le_refl _), preorder_eq_ids u h.whole]

/-! ## Postorder -/

mutual

/-- The traversal from a stack with `u` on top goes through `u` and on to the rest. -/
theorem postorderFrom_enter {s : Store} : ∀ (u : Unfolding), s.Reads u →
    ∀ (steps : Nat) (pending : List Visit), 2 * u.size ≤ steps →
      ∃ left, steps ≤ left + 2 * u.size ∧
        s.postorderFrom steps (.enter u.id :: pending) = u.postorder ++ s.postorderFrom left pending
  | .dangling id, h, steps, pending, hsteps => by
    cases steps with
    | zero => simp [Unfolding.size] at hsteps
    | succ steps =>
      refine ⟨steps, by simp [Unfolding.size], ?_⟩
      simp only [postorderFrom, Unfolding.id, show s.node? id = none from h]
      rfl
  | .node id label below, h, steps, pending, hsteps => by
    obtain ⟨⟨up, hn⟩, hbelow⟩ := h
    rw [Unfolding.size] at hsteps ⊢
    cases steps with
    | zero => omega
    | succ steps =>
      obtain ⟨left, hleft, hrun⟩ :=
        postorderFrom_enterAll below hbelow steps (.leave id :: pending) (by omega)
      cases left with
      | zero => omega
      | succ left =>
        refine ⟨left, by omega, ?_⟩
        simp only [postorderFrom, Unfolding.id, hn, List.map_map]
        rw [hrun, Unfolding.postorder, postorderFrom, Store.contains, hn]
        simp

theorem postorderFrom_enterAll {s : Store} : ∀ (us : List Unfolding), s.ReadsAll us →
    ∀ (steps : Nat) (pending : List Visit), 2 * sizeAll us ≤ steps →
      ∃ left, steps ≤ left + 2 * sizeAll us ∧
        s.postorderFrom steps (us.map (Visit.enter ∘ Unfolding.id) ++ pending) =
          postorderAll us ++ s.postorderFrom left pending
  | [], _, steps, pending, _ => ⟨steps, Nat.le_add_right _ _, rfl⟩
  | u :: us, h, steps, pending, hsteps => by
    rw [sizeAll] at hsteps ⊢
    obtain ⟨left, hleft, hrun⟩ := postorderFrom_enter u h.1 steps
      (us.map (Visit.enter ∘ Unfolding.id) ++ pending) (by omega)
    obtain ⟨left', hleft', hrun'⟩ := postorderFrom_enterAll us h.2 left pending (by omega)
    refine ⟨left', by omega, ?_⟩
    rw [List.map_cons, List.cons_append, Function.comp_apply, hrun, hrun', postorderAll,
      List.append_assoc]

end

theorem Reads.postorderFrom_eq {s : Store} {u : Unfolding} (h : s.Reads u) {steps : Nat}
    (hsteps : 2 * u.size ≤ steps) : s.postorderFrom steps [.enter u.id] = u.postorder := by
  obtain ⟨left, -, hrun⟩ := postorderFrom_enter u h steps [] hsteps
  rw [hrun]
  cases left <;> simp [postorderFrom]

theorem postorder_eq {s : Store} {up : Option NodeId} {u : Unfolding} (h : s.Holds up u)
    (hnodup : u.ids.Nodup) (hroot : s.root = some u.id) : s.postorder = u.postorder := by
  simp only [Store.postorder, hroot, unfold_of_holds h hnodup]
  exact h.reads.postorderFrom_eq (Nat.le_refl _)

end Store

end ArithTree
