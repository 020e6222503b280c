import ExprFront.Proofs.Outlines
import ExprFront.Tree.Entry
import ExprFront.Tree.Line

/-!
# Traversals agree

A tree made by hand may hold plain data where an expression should stand. The walk, which keeps a
stack, visits the nodes in the order that the recursion over the tree gives, and every traversal is
refused at the first node in this order that is no expression.
-/

namespace ExprFront
set_option autoImplicit false

namespace Node

/-! ## The order of the nodes -/

mutual

/-- A node, and then its sub-expressions from left to right, each in this order. -/
def preorder : Node → List Node
  | .binary op lhs rhs l => .binary op lhs rhs l :: (preorder lhs ++ preorder rhs)
  | .call callee args l => .call callee args l :: preorderAll args
  | n => [n]

def preorderAll : List Node → List Node
  | [] => []
  | n :: ns => preorder n ++ preorderAll ns

end

theorem preorderAll_eq_flatMap (ns : List Node) : preorderAll ns = ns.flatMap preorder := by
  induction ns with
  | nil => rfl
  | cons n ns ih => rw [preorderAll, ih, List.flatMap_cons]

theorem preorder_of_children {n : Node} {ns : List Node} (h : n.children? = some ns) :
    n.preorder = n :: ns.flatMap preorder := by
  cases n <;> simp only [children?, Option.some.injEq, reduceCtorEq] at h <;> subst h <;>
    simp [preorder, preorderAll_eq_flatMap]

theorem preorder_of_no_children {n : Node} (h : n.children? = none) : n.preorder = [n] := by
  cases n <;> simp [children?] at h <;> rfl

/-! ## The walk -/

/-- Visits nodes up to the first one that is no expression. -/
def visitUpTo : List Node → Visits
  | [] => ⟨[], none⟩
  | n :: ns =>
    if n.children?.isSome then
      let visits := visitUpTo ns
      { visits with nodes := n :: visits.nodes }
    else ⟨[n], some n⟩

/-- What remains to be visited is what stands in the trees on the stack, from the top on. -/
theorem walkAll_eq (stack : List Node) : walkAll stack = visitUpTo (stack.flatMap preorder) := by
  fun_induction walkAll stack with
  | case1 => rfl
  | case2 n stack ns h visits ih =>
    have ih : visits = visitUpTo (ns.flatMap preorder ++ stack.flatMap preorder) := by
      rw [← List.flatMap_append]
      exact ih
    rw [List.flatMap_cons, preorder_of_children h, List.cons_append, visitUpTo, ← ih]
    simp [h]
  | case3 n stack h =>
    rw [List.flatMap_cons, preorder_of_no_children h, List.singleton_append, visitUpTo]
    simp [h]

theorem walk_eq (n : Node) : n.walk = visitUpTo n.preorder := by
  rw [walk, walkAll_eq, List.flatMap_singleton]

theorem visitUpTo_of_all {ns : List Node} (h : ∀ n ∈ ns, n.children?.isSome) :
    visitUpTo ns = ⟨ns, none⟩ := by
  induction ns with
  | nil => rfl
  | cons n ns ih =>
    obtain ⟨hn, hns⟩ := List.forall_mem_cons.mp h
    simp [visitUpTo, hn, ih hns]

/-- The outcome of a traversal that looks at the nodes in order: a refusal of the first one that
is no expression, and a result if there is none. -/
def Outcome {α : Type} (fault : Node → TreeFault) (ns : List Node) (r : Except TreeFault α) : Prop :=
  match ns.find? (fun n => n.children?.isNone) with
  | none => ∃ a, r = .ok a
  | some n => r = .error (fault n)

namespace Outcome
variable {α β : Type} {fault : Node → TreeFault}

theorem done (a : α) : Outcome fault [] (.ok a) := ⟨a, rfl⟩

theorem visit {n : Node} (h : n.children?.isSome) {ns : List Node} {r : Except TreeFault α}
    (hr : Outcome fault ns r) : Outcome fault (n :: ns) r := by
  have hn : n.children?.isNone = false := by simpa [← Option.isSome_iff_ne_none] using h
  rw [Outcome, List.find?_cons_of_neg (by simp [hn])]
  exact hr

theorem refused {n : Node} (h : n.children? = none) (ns : List Node) :
    Outcome fault (n :: ns) (.error (fault n) : Except TreeFault α) := by
  rw [Outcome, List.find?_cons_of_pos (by simp [h])]

/-- One traversal after another looks at the nodes of both. -/
theorem bind {ns ms : List Node} {r : Except TreeFault α} {f : α → Except TreeFault β}
    (hr : Outcome fault ns r) (hf : ∀ a, Outcome fault ms (f a)) :
    Outcome fault (ns ++ ms) (r >>= f) := by
  unfold Outcome at hr ⊢
  rw [List.find?_append]
  cases h : ns.find? (fun n => n.children?.isNone) with
  | none =>
    rw [h] at hr
    obtain ⟨a, rfl⟩ := hr
    exact hf a
  | some n =>
    rw [h] at hr
    subst hr
    rfl

/-- What is made of a result refuses nothing. -/
theorem map {ns : List Node} {r : Except TreeFault α} (hr : Outcome fault ns r) (f : α → β) :
    Outcome fault ns (r >>= fun a => .ok (f a)) := by
  rw [← List.append_nil ns]
  exact hr.bind fun a => .done (f a)

end Outcome

mutual

theorem outcome_line : (n : Node) → Outcome .notExpression n.preorder n.line
  | .number _ _ | .variable _ _ => .visit rfl (.done _)
  | .binary _ lhs rhs _ =>
    .visit rfl ((outcome_line lhs).bind fun _ => (outcome_line rhs).map _)
  | .call _ args _ => .visit rfl ((outcome_lines args).map _)
  | .prototype _ | .function _ _ | .datum _ => .refused rfl []

theorem outcome_lines : (ns : List Node) → Outcome .notExpression (preorderAll ns) (lines ns)
  | [] => .done _
  | n :: ns => (outcome_line n).bind fun _ => (outcome_lines ns).map _

end

mutual

theorem outcome_entry : (n : Node) → Outcome .notExpression n.preorder n.entry
  | .number _ _ | .variable _ _ => .visit rfl (.done _)
  | .binary _ lhs rhs _ =>
    .visit rfl ((outcome_entry lhs).bind fun _ => (outcome_entry rhs).map _)
  | .call _ args _ => .visit rfl ((outcome_entries args).map _)
  | .prototype _ | .function _ _ | .datum _ => .refused rfl []

theorem outcome_entries : (ns : List Node) → Outcome .notExpression (preorderAll ns) (entries ns)
  | [] => .done _
  | n :: ns => (outcome_entry n).bind fun _ => (outcome_entries ns).map _

end

/-! ## Trees made by hand -/

/-- The node is an expression in which plain data may stand for any sub-expression. -/
inductive IsHandMade : Node → Prop
  | number (value : Binary64) (location : Option Location) : IsHandMade (.number value location)
  | var (name : String) (location : Option Location) : IsHandMade (.variable name location)
  | binary {op : Option String} {lhs rhs : Node} {location : Option Location}
      (hl : IsHandMade lhs) (hr : IsHandMade rhs) : IsHandMade (.binary op lhs rhs location)
  | call {callee : String} {args : List Node} {location : Option Location}
      (h : ∀ a ∈ args, IsHandMade a) : IsHandMade (.call callee args location)
  | datum (value : Datum) : IsHandMade (.datum value)

theorem IsHandMade.of_mem_preorder {n m : Node} (h : n.IsHandMade) (hm : m ∈ n.preorder) :
    m.IsHandMade := by
  induction h with
  | number value location => exact List.mem_singleton.mp hm ▸ .number value location
  | var name location => exact List.mem_singleton.mp hm ▸ .var name location
  | datum value => exact List.mem_singleton.mp hm ▸ .datum value
  | binary hl hr ihl ihr =>
    rw [preorder, List.mem_cons, List.mem_append] at hm
    rcases hm with rfl | hm | hm
    · exact .binary hl hr
    · exact ihl hm
    · exact ihr hm
  | call h ih =>
    rw [preorder, preorderAll_eq_flatMap, List.mem_cons, List.mem_flatMap] at hm
    rcases hm with rfl | ⟨a, ha, hm⟩
    · exact .call h
    · exact ih a ha hm

/-- Only the data are no expressions. -/
theorem IsHandMade.isSome_children? {n m : Node} (h : n.IsHandMade) (hm : m ∈ n.preorder)
    (hd : ∀ d, m ≠ .datum d) : m.children?.isSome := by
  cases h.of_mem_preorder hm with
  | datum value => exact absurd rfl (hd value)
  | number | var | binary | call => rfl

mutual

/-- A hand-made tree holds no signatures and functions, which have outlines. -/
theorem outcome_outlineAt : (n : Node) → n.IsHandMade → (level : Nat) →
    Outcome .notPrintable n.preorder (n.outlineAt level)
  | .number _ _, _, _ | .variable _ _, _, _ => .visit rfl (.done _)
  | .binary _ lhs rhs _, .binary hl hr, level =>
    .visit rfl ((outcome_outlineAt lhs hl (level + 1)).bind fun _ =>
      (outcome_outlineAt rhs hr (level + 1)).map _)
  | .call _ args _, .call h, level => .visit rfl ((outcome_outlineAllAt args h (level + 1)).map _)
  | .datum _, _, _ => .refused rfl []

theorem outcome_outlineAllAt : (ns : List Node) → (∀ n ∈ ns, n.IsHandMade) → (level : Nat) →
    Outcome .notPrintable (preorderAll ns) (outlineAllAt level ns)
  | [], _, _ => .done _
  | n :: ns, h, level =>
    (outcome_outlineAt n (h n List.mem_cons_self) level).bind fun _ =>
      (outcome_outlineAllAt ns (fun m hm => h m (List.mem_cons_of_mem n hm)) level).map _

end

/-! ## All traversals -/

/-- Every traversal gets through the tree, the walk in the order of the recursion. -/
structure Traversed (n : Node) : Prop where
  walk : n.walk = ⟨n.preorder, none⟩
  visited : n.visited = .ok n.preorder
  line : ∃ text, n.line = .ok text
  entry : ∃ json, n.entry = .ok json
  print : ∀ p : OutlinePrinter, ∃ text, (p.print n).1 = .ok text

variable {n : Node}

theorem Outcome.ok_of_all {α : Type} {fault : Node → TreeFault} {ns : List Node}
    {r : Except TreeFault α} (h : Outcome fault ns r) (hns : ∀ n ∈ ns, n.children?.isSome) :
    ∃ a, r = .ok a := by
  have hfind : ns.find? (fun n => n.children?.isNone) = none := by
    rw [List.find?_eq_none]
    intro n hn
    simp [Option.isSome_iff_ne_none.mp (hns n hn)]
  rwa [Outcome, hfind] at h

theorem IsHandMade.traversed (h : n.IsHandMade) (hd : ∀ d, .datum d ∉ n.preorder) :
    n.Traversed := by
  have hall : ∀ m ∈ n.preorder, m.children?.isSome := fun m hm =>
    h.isSome_children? hm fun d hmd => hd d (hmd ▸ hm)
  have hwalk : n.walk = ⟨n.preorder, none⟩ := by rw [walk_eq, visitUpTo_of_all hall]
  refine ⟨hwalk, by rw [visited, hwalk], (outcome_line n).ok_of_all hall,
    (outcome_entry n).ok_of_all hall, fun p => ?_⟩
  obtain ⟨ls, hls⟩ := (outcome_outlineAt n h 0).ok_of_all hall
  exact ⟨_, congrArg Prod.fst (p.print_of_outlineAt hls)⟩

end Node

end ExprFront
