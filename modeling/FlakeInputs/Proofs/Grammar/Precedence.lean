import FlakeInputs.Proofs.Grammar.Chains

/-!
# Precedence and grouping

The tree of a chain can be found without reading it from the left.  Of the levels with an operator
in the chain the loosest decides: the chain is cut at one operator of that level, at the last one if
the level groups to the left and at the first one if it groups to the right, and what is on the two
sides of the cut is cut in the same way.
-/

namespace FlakeInputs
namespace Grammar

/-! ## Cutting lists -/

section
variable {α : Type} {p : α → Bool} {before after xs : List α} {x : α}

/-- What is in front of the first item of which `p` holds, that item, and what is behind it. -/
def cutFirst (p : α → Bool) : List α → Option (List α × α × List α)
  | [] => none
  | x :: xs =>
    if p x then some ([], x, xs)
    else (cutFirst p xs).map fun (before, y, after) => (x :: before, y, after)

/-- What is in front of the last item of which `p` holds, that item, and what is behind it. -/
def cutLast (p : α → Bool) : List α → Option (List α × α × List α)
  | [] => none
  | x :: xs =>
    match cutLast p xs with
    | some (before, y, after) => some (x :: before, y, after)
    | none => if p x then some ([], x, xs) else none

/-- What is in front of the only item of which `p` holds, that item, and what is behind it. -/
def cutOnly (p : α → Bool) (xs : List α) : Option (List α × α × List α) :=
  (cutFirst p xs).filter fun (_, _, after) => !after.any p

theorem cutFirst_eq_some (h : cutFirst p xs = some (before, x, after)) :
    xs = before ++ x :: after ∧ p x = true ∧ ∀ y ∈ before, ¬p y := by
  induction xs generalizing before with
  | nil => exact nomatch h
  | cons y xs ih =>
    rw [cutFirst] at h
    split at h
    · next hy =>
      cases h
      exact ⟨rfl, hy, nofun⟩
    · next hy =>
      obtain ⟨⟨front, z, behind⟩, hcut, heq⟩ := Option.map_eq_some_iff.1 h
      cases heq
      obtain ⟨rfl, hx, hfront⟩ := ih hcut
      exact ⟨rfl, hx, List.forall_mem_cons.2 ⟨hy, hfront⟩⟩

theorem cutLast_eq_none (h : cutLast p xs = none) : ∀ y ∈ xs, ¬p y := by
  induction xs with
  | nil => exact nofun
  | cons x xs ih =>
    rw [cutLast] at h
    split at h
    · exact nomatch h
    · next hcut =>
      split at h
      · exact nomatch h
      · next hx => exact List.forall_mem_cons.2 ⟨hx, ih hcut⟩

theorem cutLast_eq_some (h : cutLast p xs = some (before, x, after)) :
    xs = before ++ x :: after ∧ p x = true ∧ ∀ y ∈ after, ¬p y := by
  induction xs generalizing before with
  | nil => exact nomatch h
  | cons y xs ih =>
    rw [cutLast] at h
    split at h
    · next front z behind hcut =>
      cases h
      obtain ⟨rfl, hx, hafter⟩ := ih hcut
      exact ⟨rfl, hx, hafter⟩
    · next hcut =>
      split at h
      · next hy =>
        cases h
        exact ⟨rfl, hy, cutLast_eq_none hcut⟩
      · exact nomatch h

theorem exists_cutFirst (h : xs.any p = true) : ∃ cut, cutFirst p xs = some cut := by
  induction xs with
  | nil => exact nomatch h
  | cons y xs ih =>
    rw [cutFirst]
    split
    · exact ⟨_, rfl⟩
    · next hy =>
      rw [List.any_cons, Bool.eq_false_iff.2 hy, Bool.false_or] at h
      obtain ⟨cut, hcut⟩ := ih h
      exact ⟨_, Option.map_eq_some_iff.2 ⟨cut, hcut, rfl⟩⟩

theorem exists_cutLast (h : xs.any p = true) : ∃ cut, cutLast p xs = some cut := by
  cases hcut : cutLast p xs with
  | some cut => exact ⟨cut, rfl⟩
  | none =>
    obtain ⟨y, hy, hp⟩ := List.any_eq_true.1 h
    exact absurd hp (cutLast_eq_none hcut y hy)

end

/-! ## The tree by precedence -/

/-- A chain cut at an operator of the level: at the last one if the level groups to the left, at the
first one if it groups to the right, and otherwise at the only one. -/
def Level.cut (level : Level) (rest : List (Operator × Expr)) :
    Option (List (Operator × Expr) × (Operator × Expr) × List (Operator × Expr)) :=
  match level.grouping with
  | .leftward => cutLast level.has rest
  | .rightward => cutFirst level.has rest
  | .single => cutOnly level.has rest

theorem Level.eq_of_cut {level : Level} {rest before after : List (Operator × Expr)}
    {item : Operator × Expr} (h : level.cut rest = some (before, item, after)) :
    rest = before ++ item :: after := by
  unfold Level.cut at h
  cases hgrouping : level.grouping <;> rw [hgrouping] at h
  · exact (cutLast_eq_some h).1
  · exact (cutFirst_eq_some h).1
  · exact (cutFirst_eq_some (Option.filter_eq_some_iff.1 h).1).1

/-- The loosest level with an operator in the chain. -/
def loosest? (rest : List (Operator × Expr)) : Option Level :=
  (looseLevels ++ tightLevels).find? fun level => rest.any level.has

/-- The tree of a chain, by the precedence and the grouping of its operators. -/
def byPrecedence (first : Expr) (rest : List (Operator × Expr)) : Option Expr :=
  match loosest? rest with
  | none => some first
  | some level =>
    match _ : level.cut rest with
    | none => none
    | some (before, (op, next), after) => do
      let left ← byPrecedence first before
      let right ← byPrecedence next after
      return binary left op right
termination_by rest.length
decreasing_by
  all_goals
    rw [level.eq_of_cut ‹level.cut rest = _›, List.length_append, List.length_cons]
    omega

/-! ## Levels by cuts -/

namespace Level

variable {level : Level} {inner : Expr → List (Operator × Expr) → Option Expr} {first next : Expr}
  {op : Operator} {item : Operator × Expr} {rest before after : List (Operator × Expr)}

theorem before_of_absent (h : ∀ item ∈ rest, ¬level.has item) : level.before rest = rest := by
  have hall : level.before (rest ++ []) = rest ++ level.before [] :=
    List.takeWhile_append_of_pos fun item hitem => by simp [h item hitem]
  rwa [List.append_nil, show level.before [] = [] from rfl, List.append_nil] at hall

theorem since_of_absent (h : ∀ item ∈ rest, ¬level.has item) : level.since rest = [] := by
  have hall : level.since (rest ++ []) = level.since [] :=
    List.dropWhile_append_of_pos fun item hitem => by simp [h item hitem]
  rwa [List.append_nil] at hall

theorem before_append_cons (h : level.has item = true) (rest after : List (Operator × Expr)) :
    level.before (rest ++ item :: after) = level.before rest := by
  induction rest with
  | nil => simp [Level.before, h]
  | cons item' rest ih =>
    simp only [Level.before, List.cons_append, List.takeWhile_cons] at ih ⊢
    rw [ih]

theorem since_append_cons (h : level.has item = true) (rest after : List (Operator × Expr)) :
    level.since (rest ++ item :: after) = level.since rest ++ item :: after := by
  induction rest with
  | nil => simp [Level.since, h]
  | cons item' rest ih =>
    simp only [Level.since, List.cons_append, List.dropWhile_cons] at ih ⊢
    rw [ih]
    split <;> rfl

theorem links_cons_of_ne (h : level.grouping ≠ .single) :
    level.links inner (item :: rest) = do
      let operand ← inner item.2 (level.before rest)
      let items ← level.links inner (level.since rest)
      return (item.1, operand) :: items := by
  rw [Level.links]
  simp only [h, if_false]

/-- Where there is no operator of the level, what is tighter groups the whole chain. -/
theorem group_of_absent (h : ∀ item ∈ rest, ¬level.has item) :
    level.group inner first rest = inner first rest := by
  rw [Level.group, before_of_absent h, since_of_absent h, Level.links]
  simp [tree_nil]

/-- The last operand of a level comes behind all others. -/
theorem links_concat (hgrouping : level.grouping ≠ .single) (hop : level.has (op, next) = true)
    (hafter : ∀ item ∈ after, ¬level.has item) (rest : List (Operator × Expr)) :
    level.links inner (rest ++ (op, next) :: after) = do
      let items ← level.links inner rest
      let right ← inner next after
      return items ++ [(op, right)] := by
  induction hn : rest.length using Nat.strongRecOn generalizing rest with
  | _ n ih =>
    subst hn
    cases rest with
    | nil =>
      rw [List.nil_append, links_cons_of_ne hgrouping, before_of_absent hafter,
        since_of_absent hafter, Level.links]
      rfl
    | cons item' rest =>
      have hshorter : (level.since rest).length < (item' :: rest).length :=
        Nat.lt_succ_of_le (List.dropWhile_sublist _).length_le
      rw [List.cons_append, links_cons_of_ne hgrouping, links_cons_of_ne hgrouping,
        before_append_cons hop, since_append_cons hop, ih _ hshorter _ rfl]
      simp only [bind_assoc, pure_bind, List.cons_append]

theorem group_leftward (hgrouping : level.grouping = .leftward) (hop : level.has (op, next) = true)
    (hafter : ∀ item ∈ after, ¬level.has item) :
    level.group inner first (before ++ (op, next) :: after) = do
      let left ← level.group inner first before
      let right ← level.group inner next after
      return binary left op right := by
  have hne : level.grouping ≠ .single := by rw [hgrouping]; decide
  rw [group_of_absent hafter, Level.group, Level.group, before_append_cons hop,
    since_append_cons hop, links_concat hne hop hafter]
  simp only [bind_assoc, pure_bind, Level.tree, hgrouping, leftTree, List.foldl_append,
    List.foldl_cons, List.foldl_nil]

theorem group_rightward (hgrouping : level.grouping = .rightward)
    (hop : level.has (op, next) = true) (hbefore : ∀ item ∈ before, ¬level.has item) :
    level.group inner first (before ++ (op, next) :: after) = do
      let left ← level.group inner first before
      let right ← level.group inner next after
      return binary left op right := by
  have hne : level.grouping ≠ .single := by rw [hgrouping]; decide
  rw [group_of_absent hbefore, Level.group, Level.group, before_append_cons hop,
    since_append_cons hop, before_of_absent hbefore, since_of_absent hbefore, List.nil_append,
    links_cons_of_ne hne]
  simp only [bind_assoc, pure_bind, Level.tree, hgrouping, rightTree]

/-- A level that does not group takes one operator. -/
theorem group_single (hgrouping : level.grouping = .single) (hop : level.has (op, next) = true)
    (hbefore : ∀ item ∈ before, ¬level.has item)
    (hafter : ∀ item ∈ after, ¬level.has item) :
    level.group inner first (before ++ (op, next) :: after) = do
      let left ← level.group inner first before
      let right ← level.group inner next after
      return binary left op right := by
  rw [group_of_absent hbefore, group_of_absent hafter, Level.group, before_append_cons hop,
    since_append_cons hop, before_of_absent hbefore,
    since_of_absent hbefore, List.nil_append, Level.links, before_of_absent hafter,
    since_of_absent hafter]
  simp only [hgrouping, if_true, List.isEmpty_nil, ← Option.pure_def, bind_assoc, pure_bind,
    Level.tree, leftTree, List.foldl_cons, List.foldl_nil]

theorem group_eq_none (hgrouping : level.grouping = .single) (hop : level.has (op, next) = true)
    (hbefore : ∀ item ∈ before, ¬level.has item) (hafter : after.any level.has = true) :
    level.group inner first (before ++ (op, next) :: after) = none := by
  obtain ⟨item, hmem, hitem⟩ := List.any_eq_true.1 hafter
  have hsince : level.since after ≠ [] := by
    obtain ⟨between, behind, rfl⟩ := List.append_of_mem hmem
    rw [since_append_cons hitem]
    exact List.append_ne_nil_of_right_ne_nil _ (List.cons_ne_nil _ _)
  rw [Level.group, before_append_cons hop, since_append_cons hop, before_of_absent hbefore,
    since_of_absent hbefore, List.nil_append, Level.links]
  simp [hgrouping, hsince]

/-- What a level makes of a chain with an operator of the level is made of the two sides of a
cut. -/
theorem group_eq_cut (h : rest.any level.has = true) :
    level.group inner first rest = do
      let (before, (op, next), after) ← level.cut rest
      let left ← level.group inner first before
      let right ← level.group inner next after
      return binary left op right := by
  rw [Level.cut]
  cases hgrouping : level.grouping with
  | leftward =>
    obtain ⟨⟨before, ⟨op, next⟩, after⟩, hcut⟩ := exists_cutLast h
    obtain ⟨rfl, hop, hafter⟩ := cutLast_eq_some hcut
    simp only [hcut]
    exact group_leftward hgrouping hop hafter
  | rightward =>
    obtain ⟨⟨before, ⟨op, next⟩, after⟩, hcut⟩ := exists_cutFirst h
    obtain ⟨rfl, hop, hbefore⟩ := cutFirst_eq_some hcut
    simp only [hcut]
    exact group_rightward hgrouping hop hbefore
  | single =>
    obtain ⟨⟨before, ⟨op, next⟩, after⟩, hcut⟩ := exists_cutFirst h
    obtain ⟨rfl, hop, hbefore⟩ := cutFirst_eq_some hcut
    simp only [cutOnly, hcut, Option.filter_some]
    cases hafter : after.any level.has with
    | true => exact group_eq_none hgrouping hop hbefore hafter
    | false => exact group_single hgrouping hop hbefore (List.any_eq_false.1 hafter)

end Level

/-! ## Chains by precedence -/

section
variable {table looser : List Level} {level : Level}
  {inner : Expr → List (Operator × Expr) → Option Expr} {first : Expr}
  {rest : List (Operator × Expr)}

/-- Levels without an operator in the chain are passed over. -/
theorem groups_of_absent (h : ∀ level ∈ looser, ∀ item ∈ rest, ¬level.has item) :
    groups (looser ++ table) inner first rest = groups table inner first rest := by
  induction looser with
  | nil => rfl
  | cons level looser ih =>
    obtain ⟨hlevel, hlooser⟩ := List.forall_mem_cons.1 h
    exact (Level.group_of_absent hlevel).trans (ih hlooser)

/-- The levels group a chain by precedence. -/
theorem groups_eq_byPrecedence (first : Expr) (rest : List (Operator × Expr)) :
    groups (looseLevels ++ tightLevels) (fun first _ => some first) first rest =
      byPrecedence first rest := by
  induction hn : rest.length using Nat.strongRecOn generalizing first rest with
  | _ n ih =>
    subst hn
    rw [byPrecedence]
    split
    · next hloosest =>
      have habsent := List.find?_eq_none.1 hloosest
      rw [← List.append_nil (looseLevels ++ tightLevels), groups_of_absent fun level hlevel =>
        List.any_eq_false.1 (Bool.eq_false_iff.2 (habsent level hlevel))]
      rfl
    · next level hloosest =>
      obtain ⟨hany, looser, tighter, htable, hlooser⟩ := List.find?_eq_some_iff_append.1 hloosest
      have habsent : ∀ level ∈ looser, ∀ item ∈ rest, ¬level.has item := fun level hlevel =>
        List.any_eq_false.1 (Bool.not_eq_eq_eq_not.1 (hlooser level hlevel))
      have hskip : ∀ first' rest', rest' ⊆ rest → groups (looseLevels ++ tightLevels)
          (fun first _ => some first) first' rest' =
            level.group (groups tighter fun first _ => some first) first' rest' := by
        intro first' rest' hsubset
        rw [htable]
        exact groups_of_absent fun level hlevel item hitem =>
          habsent level hlevel item (hsubset hitem)
      rw [hskip first rest (List.Subset.refl _), Level.group_eq_cut hany]
      split
      · next hcut => rw [hcut]; rfl
      · next before op next after hcut =>
        obtain rfl := level.eq_of_cut hcut
        have hlength : (before ++ (op, next) :: after).length =
            before.length + (after.length + 1) := List.length_append
        rw [hcut]
        simp only [Option.bind_eq_bind, Option.bind_some]
        rw [← hskip first before (List.subset_append_left _ _), ← hskip next after
          (List.subset_append_of_subset_right _ (List.subset_cons_self _ _)),
          ih before.length (by omega) _ _ rfl, ih after.length (by omega) _ _ rfl]

end

/-- The tokens of a chain have a tree exactly if its operators group by precedence, and then it is
the tree by precedence. -/
theorem whole_chain (first : Operand) (rest : List Link) :
    (whole (first.tokens ++ chainTokens rest)).toOption =
      byPrecedence first.value (rest.map Link.item) := by
  rw [whole_eq_groups, groups_eq_byPrecedence]

example (a b c d : Expr) :
    byPrecedence a [(.minus, b), (.times, c), (.minus, d)] =
      some (binary (binary a .minus (binary b .times c)) .minus d) := by
  cbv

end Grammar
end FlakeInputs
