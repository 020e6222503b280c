import ExprFront.Parser.Expression

/-!
# Trees of chains

A chain is an operand followed by links, each an operator and the operand to its right. Its tree
is found by splitting the chain at its rightmost operator of least precedence and doing the
same with the two parts. The stack of waiting operators builds this very tree.
-/

namespace ExprFront
set_option autoImplicit false

/-- An operator of a chain and the operand to its right. -/
structure Link where
  op : Char
  location : Location
  operand : Node

namespace OperatorTable
variable (table : OperatorTable)

/-! ## Splitting -/

/-- The links before, at and after the rightmost operator of least precedence. -/
def split : List Link → Option (List Link × Link × List Link)
  | [] => none
  | k :: ks =>
    match split ks with
    | none => some ([], k, [])
    | some (before, m, after) =>
      if table.precedence m.op ≤ table.precedence k.op then some (k :: before, m, after)
      else some ([], k, ks)

theorem split_eq_none_iff (ks : List Link) : table.split ks = none ↔ ks = [] := by
  cases ks with
  | nil => simp [split]
  | cons k ks =>
    simp only [split, reduceCtorEq, iff_false]
    split
    · simp
    · split <;> simp

theorem split_append {ks before after : List Link} {m : Link}
    (h : table.split ks = some (before, m, after)) : ks = before ++ m :: after := by
  induction ks generalizing before m after with
  | nil => simp [split] at h
  | cons k ks ih =>
    simp only [split] at h
    split at h
    · next hn =>
      obtain ⟨rfl, rfl, rfl⟩ : [] = before ∧ k = m ∧ [] = after := by simpa using h
      rw [(table.split_eq_none_iff ks).mp hn]
      rfl
    · next b n a hs =>
      split at h
      · obtain ⟨rfl, rfl, rfl⟩ : k :: b = before ∧ n = m ∧ a = after := by simpa using h
        rw [ih hs]
        rfl
      · obtain ⟨rfl, rfl, rfl⟩ : [] = before ∧ k = m ∧ ks = after := by simpa using h
        rfl

/-- No operator binds looser than the one at which a chain is split, and those to its right bind
tighter. -/
theorem split_least {ks before after : List Link} {m : Link}
    (h : table.split ks = some (before, m, after)) :
    (∀ k ∈ before, table.precedence m.op ≤ table.precedence k.op) ∧
      ∀ k ∈ after, table.precedence m.op < table.precedence k.op := by
  induction ks generalizing before m after with
  | nil => simp [split] at h
  | cons k ks ih =>
    simp only [split] at h
    split at h
    · obtain ⟨rfl, rfl, rfl⟩ : [] = before ∧ k = m ∧ [] = after := by simpa using h
      simp
    · next b n a hs =>
      obtain ⟨hb, ha⟩ := ih hs
      split at h
      · next hle =>
        obtain ⟨rfl, rfl, rfl⟩ : k :: b = before ∧ n = m ∧ a = after := by simpa using h
        exact ⟨List.forall_mem_cons.mpr ⟨hle, hb⟩, ha⟩
      · next hlt =>
        obtain ⟨rfl, rfl, rfl⟩ : [] = before ∧ k = m ∧ ks = after := by simpa using h
        refine ⟨by simp, ?_⟩
        -- The new operator is below the old least one, and so below all that come after it.
        rw [table.split_append hs]
        intro j hj
        rcases List.mem_append.mp hj with hj | hj
        · have := hb j hj
          omega
        · rcases List.mem_cons.mp hj with rfl | hj
          · omega
          · have := ha j hj
            omega

/-- The tree of a chain: split at the rightmost operator of least precedence, and so on. -/
def tree (e : Node) (ks : List Link) : Node :=
  match _h : table.split ks with
  | none => e
  | some (before, k, after) =>
    .binary (some (String.singleton k.op)) (tree e before) (tree k.operand after)
      (some k.location)
termination_by ks.length
decreasing_by
  all_goals
    rw [table.split_append _h, List.length_append, List.length_cons]
    omega

theorem tree_nil (e : Node) : table.tree e [] = e := by
  rw [tree]
  rfl

theorem tree_of_split {ks before after : List Link} {k : Link}
    (h : table.split ks = some (before, k, after)) (e : Node) :
    table.tree e ks = .binary (some (String.singleton k.op)) (table.tree e before)
      (table.tree k.operand after) (some k.location) := by
  rw [tree]
  split
  · next hn =>
    rw [h] at hn
    simp at hn
  · next b m a hs =>
    rw [h] at hs
    obtain ⟨rfl, rfl, rfl⟩ : before = b ∧ k = m ∧ after = a := by simpa using hs
    rfl

/-! ## The stack of waiting operators -/

/-- Puts the operators of a chain on the stack, and moves on to the last operand. -/
def load : List Waiting → Node → List Link → List Waiting × Node
  | ws, e, [] => (ws, e)
  | ws, e, k :: ks => load (table.push ws e k.op k.location) k.operand ks

theorem load_append (ws : List Waiting) (e : Node) (ks js : List Link) :
    table.load ws e (ks ++ js) = table.load (table.load ws e ks).1 (table.load ws e ks).2 js := by
  induction ks generalizing ws e with
  | nil => rfl
  | cons k ks ih => exact ih _ _

theorem reduce_all (least : Int) (ws : List Waiting) (e : Node)
    (h : ∀ w ∈ ws, least ≤ table.precedence w.op) :
    table.reduce least ws e = ([], completeAll ws e) := by
  induction ws generalizing e with
  | nil => rfl
  | cons w ws ih =>
    obtain ⟨hw, hws⟩ := List.forall_mem_cons.mp h
    rw [reduce, if_pos hw, ih (w.complete e) hws]
    rfl

theorem reduce_suffix (least : Int) (ws : List Waiting) (e : Node) :
    (table.reduce least ws e).1 <:+ ws := by
  induction ws generalizing e with
  | nil => exact List.suffix_rfl
  | cons w ws ih =>
    rw [reduce]
    split
    · exact (ih (w.complete e)).trans (List.suffix_cons w ws)
    · exact List.suffix_rfl

/-- An operator that binds looser than the new one stays, and what is above it is reduced as if
it were not there. -/
theorem reduce_concat {least : Int} {w : Waiting} (hw : table.precedence w.op < least)
    (ws : List Waiting) (e : Node) :
    table.reduce least (ws ++ [w]) e =
      ((table.reduce least ws e).1 ++ [w], (table.reduce least ws e).2) := by
  induction ws generalizing e with
  | nil =>
    have hn : ¬ least ≤ table.precedence w.op := by omega
    simp only [List.nil_append, reduce, if_neg hn]
  | cons v ws ih =>
    rw [List.cons_append, reduce, reduce]
    split
    · exact ih (v.complete e)
    · rfl

theorem load_least {n : Int} (ws : List Waiting) (e : Node) (ks : List Link)
    (hw : ∀ w ∈ ws, n ≤ table.precedence w.op) (hk : ∀ k ∈ ks, n ≤ table.precedence k.op) :
    ∀ w ∈ (table.load ws e ks).1, n ≤ table.precedence w.op := by
  induction ks generalizing ws e with
  | nil => exact hw
  | cons k ks ih =>
    obtain ⟨hk₁, hks⟩ := List.forall_mem_cons.mp hk
    refine ih _ _ ?_ hks
    intro w hmem
    rcases List.mem_cons.mp hmem with rfl | hmem
    · exact hk₁
    · exact hw w ((table.reduce_suffix _ ws e).subset hmem)

theorem load_concat {w : Waiting} (ws : List Waiting) (e : Node) (ks : List Link)
    (h : ∀ k ∈ ks, table.precedence w.op < table.precedence k.op) :
    table.load (ws ++ [w]) e ks = ((table.load ws e ks).1 ++ [w], (table.load ws e ks).2) := by
  induction ks generalizing ws e with
  | nil => rfl
  | cons k ks ih =>
    obtain ⟨hk, hks⟩ := List.forall_mem_cons.mp h
    simp only [load]
    rw [← ih _ _ hks]
    simp only [push, table.reduce_concat hk, List.cons_append]

theorem completeAll_concat (ws : List Waiting) (w : Waiting) (e : Node) :
    completeAll (ws ++ [w]) e = w.complete (completeAll ws e) := by
  simp only [completeAll, List.foldl_append, List.foldl_cons, List.foldl_nil]

/-- What the stack amounts to after a chain is the tree of the chain. -/
theorem completeAll_load (e : Node) (ks : List Link) :
    completeAll (table.load [] e ks).1 (table.load [] e ks).2 = table.tree e ks := by
  fun_induction tree table e ks with
  | case1 e ks h =>
    rw [(table.split_eq_none_iff ks).mp h]
    rfl
  | case2 e ks before k after h ihb iha =>
    obtain ⟨hb, ha⟩ := table.split_least h
    -- The operator of the split completes all before it and then stays at the bottom.
    have hpush : table.push (table.load [] e before).1 (table.load [] e before).2 k.op k.location =
        [⟨table.tree e before, k.op, k.location⟩] := by
      have hall := table.load_least [] e before (by simp) hb
      rw [push, table.reduce_all _ _ _ hall, ihb]
    have hload := table.load_concat (w := ⟨table.tree e before, k.op, k.location⟩) [] k.operand
      after ha
    rw [table.split_append h, load_append, load, hpush]
    rw [List.nil_append] at hload
    rw [hload, completeAll_concat, iha]
    rfl

end OperatorTable

end ExprFront
