import SignalCalc.Expression.Numeric
import SignalCalc.Proofs.Expression.Postfix
import SignalCalc.Proofs.Outcome

/-!
# The stack machine computes trees

Running the code of a tree leaves the value of the tree on the stack, or stops at the error that the
recursive evaluation stops at (`foldlM_step_postorder`). With the conversion of drafts this gives
`stack_machine_evaluates_tree`: the tokens of an expression have one tree, and converting and
running them is evaluating it.
-/

namespace SignalCalc

variable {α V : Type} [Zero α] [BEq α]

namespace Interpretation

/-- Running the code of a tree puts its value on the stack, whatever is there already and whatever
code follows. -/
theorem foldlM_step_postorder (m : Interpretation α V) (tree : Tree α) (stack : List V)
    (rest : List (Token α)) :
    (tree.postorder ++ rest).foldlM m.step stack =
      tree.evaluate m >>= fun v => rest.foldlM m.step (v :: stack) := by
  induction tree generalizing stack rest with
  | number value text position => rfl
  | dataset index text position =>
    simp only [Tree.postorder, List.singleton_append, List.foldlM_cons, step, Tree.evaluate]
    cases m.dataset index text <;> rfl
  | laplace text position =>
    simp only [Tree.postorder, List.singleton_append, List.foldlM_cons, step, Tree.evaluate]
    cases m.laplace text <;> rfl
  | negate text position operand ih =>
    rw [Tree.postorder, List.append_assoc, ih, Tree.evaluate]
    cases operand.evaluate m with
    | error e => rfl
    | ok v =>
      simp only [List.singleton_append, List.foldlM_cons, step, ok_bind]
      cases m.negate v <;> rfl
  | binary o text position left right ihl ihr =>
    rw [Tree.postorder, List.append_assoc, List.append_assoc, ihl, Tree.evaluate]
    cases left.evaluate m with
    | error e => rfl
    | ok a =>
      simp only [ihr, ok_bind]
      cases right.evaluate m with
      | error e => rfl
      | ok b =>
        simp only [List.singleton_append, List.foldlM_cons, step, ok_bind]
        cases m.binary o a b <;> rfl
  | call f text position argument ih =>
    rw [Tree.postorder, List.append_assoc, ih, Tree.evaluate]
    cases argument.evaluate m with
    | error e => rfl
    | ok v =>
      simp only [List.singleton_append, List.foldlM_cons, step, ok_bind]
      cases m.builtin f text v <;> rfl

/-- Running the code of a tree gives its value, or the error that comes first in it. -/
theorem run_postorder (m : Interpretation α V) (tree : Tree α) :
    m.run tree.postorder = tree.evaluate m := by
  have h := m.foldlM_step_postorder tree [] []
  rw [List.append_nil] at h
  rw [run, h]
  cases tree.evaluate m <;> rfl

end Interpretation

/-- The tokens of an expression in postfix order are the postorder of its tree. -/
theorem Derives.toPostfix {tokens : List (Token α)} {tree : Tree α}
    (h : Derives .sum tokens tree) : toPostfix tokens = .ok tree.postorder :=
  (Drafts.of_derives h).toPostfix

/-- Converting and running the tokens of an expression is evaluating its tree. -/
theorem Derives.evaluate {tokens : List (Token α)} {tree : Tree α} (h : Derives .sum tokens tree)
    (m : Interpretation α V) : m.evaluate tokens = tree.evaluate m := by
  rw [Interpretation.evaluate, h.toPostfix, ← m.run_postorder tree]
  rfl

/-- The tokens of an expression have one tree, since the conversion gives them one code. -/
theorem Derives.eq_of_derives {tokens : List (Token α)} {tree tree' : Tree α}
    (h : Derives .sum tokens tree) (h' : Derives .sum tokens tree') : tree' = tree := by
  have hp := h'.toPostfix
  rw [h.toPostfix] at hp
  injection hp with hp
  exact (Tree.eq_of_postorder hp).symm

/-- **The stack machine evaluates trees.** The tokens of an expression have one tree; the conversion
lists it in postorder, and running the list gives what evaluating the tree gives, operands from left
to right, errors included. -/
theorem stack_machine_evaluates_tree {tokens : List (Token α)} {tree : Tree α}
    (h : Derives .sum tokens tree) :
    toPostfix tokens = .ok tree.postorder ∧
      (∀ tree', Derives .sum tokens tree' → tree' = tree) ∧
      ∀ {V : Type} (m : Interpretation α V),
        m.run tree.postorder = tree.evaluate m ∧ m.evaluate tokens = tree.evaluate m :=
  ⟨h.toPostfix, fun _ h' => h.eq_of_derives h',
    fun m => ⟨m.run_postorder tree, h.evaluate m⟩⟩

/-- In `[1]-abs([2])^-2` the sign binds its number before the power does and the power goes before
the difference. Both datasets are missing, and the left one is reported. -/
theorem stack_machine_evaluates_tree_difference :
    let tokens : List (Token Float) :=
      [⟨.dataset 0, "[1]", 0⟩, ⟨.operator .subtract, "-", 3⟩, ⟨.builtin .abs, "abs", 4⟩,
        ⟨.openParen, "(", 7⟩, ⟨.dataset 1, "[2]", 8⟩, ⟨.closeParen, ")", 11⟩,
        ⟨.operator .power, "^", 12⟩, ⟨.negate, "-", 13⟩, ⟨.number 2, "2", 14⟩]
    let tree : Tree Float :=
      .binary .subtract "-" 3 (.dataset 0 "[1]" 0)
        (.binary .power "^" 12 (.call .abs "abs" 4 (.dataset 1 "[2]" 8))
          (.negate "-" 13 (.number 2 "2" 14)))
    Derives .sum tokens tree ∧ toPostfix tokens = .ok tree.postorder ∧
      (Interpretation.numeric [] 1).evaluate tokens = .error (.unknownDataset "[1]") := by
  intro tokens tree
  have hl : Derives .sum [(⟨.dataset 0, "[1]", 0⟩ : Token Float)] (.dataset 0 "[1]" 0) :=
    .ofProduct (.ofPower (.ofSigned (.ofPrimary (.dataset 0 "[1]" 0))))
  have hc : Derives .primary
      [(⟨.builtin .abs, "abs", 4⟩ : Token Float), ⟨.openParen, "(", 7⟩, ⟨.dataset 1, "[2]", 8⟩,
        ⟨.closeParen, ")", 11⟩]
      (.call .abs "abs" 4 (.dataset 1 "[2]" 8)) := by
    have ha : Derives .sum [(⟨.dataset 1, "[2]", 8⟩ : Token Float)] (.dataset 1 "[2]" 8) :=
      .ofProduct (.ofPower (.ofSigned (.ofPrimary (.dataset 1 "[2]" 8))))
    have ho : (⟨.openParen, "(", 7⟩ : Token Float).kind = .openParen := rfl
    have hc : (⟨.closeParen, ")", 11⟩ : Token Float).kind = .closeParen := rfl
    exact .call .abs "abs" 4 ho hc ha
  have hr := Derives.negate "-" 13 (.ofPrimary (.number (2 : Float) "2" 14))
  have h : Derives .sum tokens tree :=
    .sum "-" 3 rfl hl (.ofPower (.power "^" 12 rfl (.ofPrimary hc) (.ofSigned hr)))
  obtain ⟨hp, -, hm⟩ := stack_machine_evaluates_tree h
  exact ⟨h, hp, (hm (.numeric [] 1)).2⟩

end SignalCalc
