import LinOpt.Proofs.Integer.Search
import Mathlib.Data.List.Perm.Subperm
/-!
# The nodes of a search

A node of branch and bound says where it stands four times: by its depth, its label, its decisions
and its problem. The four agree at every point of a search, whatever the solver answers, and no two
nodes have one name (`searchWith_consistent`).

The names are carried by one list: those of the visited nodes, those of the open nodes, and those
kept for the children of the node in hand (`Point.names`). Taking a node adds the names of its two
children, which are new because their parent was still open; no other move adds a name.
-/

namespace LinOpt

/-! ## Names -/

/-- The letter of a side. -/
def Side.letter : Side → Char
  | .left => 'L'
  | .right => 'R'

theorem Side.letter_injective : Function.Injective Side.letter := by
  intro side other h
  cases side <;> cases other <;> first | rfl | exact absurd h (by decide)

namespace Label

/-- A child is called after its parent and its side. -/
theorem toList_text_append (label : Label) (side : Side) :
    (text (label ++ [side])).toList = (text label).toList ++ ['.', side.letter] := by
  cases side <;> simp [text, Side.letter]

/-- **The name of a node tells its label.** -/
theorem text_injective : Function.Injective text := by
  have hroot : ∀ (label : Label) (side : Side), text [] ≠ text (label ++ [side]) := by
    intro label side h
    have hlast := congrArg (fun name => name.toList.getLast?) h
    cases side <;> simp [text] at hlast
  intro label
  induction label using List.reverseRecOn with
  | nil =>
    intro other h
    rcases List.eq_nil_or_concat' other with rfl | ⟨init, side, rfl⟩
    · rfl
    · exact absurd h (hroot init side)
  | append_singleton label side ih =>
    intro other h
    rcases List.eq_nil_or_concat' other with rfl | ⟨init, side', rfl⟩
    · exact absurd h.symm (hroot label side)
    · have hchars := congrArg String.toList h
      rw [toList_text_append, toList_text_append] at hchars
      obtain ⟨hinit, hend⟩ := List.append_inj' hchars rfl
      obtain rfl := ih (String.toList_injective hinit)
      obtain rfl := Side.letter_injective (List.cons.inj (List.cons.inj hend).2).1
      rfl

end Label

/-! ## What holds of the nodes -/

section Nodes

variable {α : Type} [Scalar α]

/-- The model with the rows of the decisions, one for each, in their order. -/
def Model.decided (model : Model α) (decisions : List Decision) : Except (Fault α) (Model α) :=
  decisions.foldlM (fun problem decision =>
    problem.withBound decision.variableIndex (Scalar.ofInt decision.bound) decision.isUpper) model

/-- The side on which a decision leads. -/
def Decision.side (decision : Decision) : Side := if decision.isUpper then .left else .right

/-- **A node agrees with its decisions**: there are as many of them as its depth, they lead the way
that its label tells, and their rows make its problem out of the model. -/
structure Node.Agrees (model : Model α) (node : Node α) : Prop where
  depth_eq : node.depth = node.decisions.length
  label_eq : node.label = node.decisions.map Decision.side
  problem_eq : model.decided node.decisions = .ok node.problem

namespace BranchAndBound

/-- **The nodes of a state are consistent.** -/
structure Consistent (model : Model α) (state : State α) : Prop where
  /-- An open node is as deep as it has decisions and as its label has sides. -/
  depth : ∀ node ∈ state.frontier,
    node.depth = node.decisions.length ∧ node.depth = node.label.length
  /-- Its problem is the model with one row for each decision. -/
  problem : ∀ node ∈ state.frontier, model.decided node.decisions = .ok node.problem
  /-- No two of the visited and the open nodes have one name. -/
  distinct : ((state.visited ++ state.frontier.map (·.label)).map Label.text).Nodup
  /-- The parent of each of them has been visited. -/
  parent : ∀ parent side, parent ++ [side] ∈ state.visited ++ state.frontier.map (·.label) →
    parent ∈ state.visited

/-- **Parents come first.** -/
def ParentsFirst (visited : List Label) : Prop :=
  ∀ before after parent side, visited = before ++ (parent ++ [side]) :: after → parent ∈ before

namespace ParentsFirst

theorem nil : ParentsFirst [] := by
  intro before after parent side h
  simp at h

/-- A node may follow its parent. -/
theorem snoc {visited : List Label} {label : Label} (h : ParentsFirst visited)
    (hparent : ∀ parent side, label = parent ++ [side] → parent ∈ visited) :
    ParentsFirst (visited ++ [label]) := by
  intro before after parent side heq
  rcases List.eq_nil_or_concat' after with rfl | ⟨init, last, rfl⟩
  · obtain ⟨rfl, hlast⟩ := List.append_inj' heq rfl
    exact hparent parent side (List.singleton_inj.mp hlast)
  · rw [← List.cons_append, ← List.append_assoc] at heq
    obtain ⟨rfl, -⟩ := List.append_inj' heq rfl
    exact h before init parent side rfl

end ParentsFirst

/-! ## The names in use -/

/-- The names kept for children of the node in hand. -/
def Stage.kept : Stage α → List Label
  | .between => []
  | .taken node | .split node _ _ => [node.label ++ [.left], node.label ++ [.right]]
  | .half node _ _ => [node.label ++ [.right]]

/-- The names in use, and those kept for children. -/
def Point.names (p : Point α) : List Label :=
  p.state.visited ++ p.state.frontier.map (·.label) ++ p.stage.kept

/-- What every move keeps: the nodes agree with their decisions, the names differ, and each name
stands below a visited one. -/
structure Sound (setting : Setting α) (p : Point α) : Prop where
  agrees : ∀ node ∈ p.live, node.Agrees setting.model
  nodup : p.names.Nodup
  parent : ∀ parent side, parent ++ [side] ∈ p.names → parent ∈ p.state.visited
  first : ParentsFirst p.state.visited
  capped : p.state.visited.length ≤ setting.opts.maxNodes

section Moves

variable {setting : Setting α} {p q : Point α}

/-- A child agrees with its decisions where its parent does. -/
theorem agrees_child {node : Node α} {j bound : ℤ} {side : Side} {problem : Model α}
    {solution : List α} {objective : α} (h : node.Agrees setting.model)
    (hproblem : node.problem.withBound j (Scalar.ofInt bound) (side == .left) = .ok problem) :
    (setting.child node j side bound problem solution objective).Agrees setting.model where
  depth_eq := by simp [Setting.child, h.depth_eq]
  label_eq := by cases side <;> simp [Setting.child, h.label_eq, Decision.side]
  problem_eq := by
    have hprefix := h.problem_eq
    unfold Model.decided at hprefix ⊢
    simp [Setting.child, List.foldlM_append, hprefix, hproblem, ok_bind]

/-- A move that visits nothing uses no other names. -/
theorem Sound.of_subperm (h : Sound setting p) (hvisited : q.state.visited = p.state.visited)
    (hnames : q.names.Subperm p.names)
    (hagrees : ∀ node ∈ q.live, node.Agrees setting.model) :
    Sound setting q where
  agrees := hagrees
  nodup := by
    obtain ⟨l, hperm, hsub⟩ := hnames
    exact hperm.nodup_iff.mp (h.nodup.sublist hsub)
  parent := by
    intro parent side hmem
    rw [hvisited]
    exact h.parent parent side (hnames.subset hmem)
  first := hvisited ▸ h.first
  capped := hvisited ▸ h.capped

/-- **Solving a child uses up the name kept for it.** -/
theorem Sound.addChild {taken : List (Node α)} {state next : State α} {node : Node α} {j bound : ℤ}
    {side : Side} {before after : Stage α}
    (h : Sound setting ⟨taken, before, state⟩) (hheld : before.held = [node])
    (hafter : ∀ other ∈ after.held, other = node)
    (hkept : before.kept = (node.label ++ [side]) :: after.kept)
    (hadd : (addChild setting node j state side bound).outcome = .ok next) :
    Sound setting ⟨taken, after, next⟩ := by
  obtain ⟨problem, children, hproblem, rfl, hchildren⟩ := exists_of_addChild hadd
  have hnode : node.Agrees setting.model := h.agrees node (by simp [Point.live, hheld])
  have hopen : ∀ other ∈ state.frontier, other.Agrees setting.model := fun other hother =>
    h.agrees other (List.mem_append_left _ hother)
  have hnew : (∀ child ∈ children, child.Agrees setting.model) ∧
      (children.map (·.label)).Sublist [node.label ++ [side]] := by
    rcases hchildren with ⟨result, solution, objective, -, -, -, -, rfl⟩ | ⟨-, rfl⟩
    · refine ⟨?_, List.Sublist.refl _⟩
      intro child hchild
      obtain rfl := List.mem_singleton.mp hchild
      exact agrees_child hnode hproblem
    · simp
  refine h.of_subperm rfl ?_ ?_
  · simp only [Point.names, hkept, List.map_append, List.append_assoc]
    refine List.Sublist.subperm ?_
    exact (((hnew.2.append (List.Sublist.refl after.kept)).append_left _).append_left _)
  · intro other hother
    simp only [Point.live, List.mem_append] at hother
    rcases hother with (hother | hother) | hother
    · exact hopen other hother
    · exact hnew.1 other hother
    · obtain rfl := hafter other hother
      exact hnode

/-- **A taken node moves its name and keeps those of its children**, which nothing has: its parent's
name was still that of an open node. -/
theorem Sound.take {taken : List (Node α)} {state : State α} {node : Node α} {rest : List (Node α)}
    (h : Sound setting ⟨taken, .between, state⟩)
    (hcap : state.visited.length < setting.opts.maxNodes)
    (hordered : ordered state.frontier = node :: rest) :
    Sound setting ⟨taken ++ [node], .taken node,
      { state with frontier := rest, visited := state.visited ++ [node.label] }⟩ := by
  have hperm : (node :: rest).Perm state.frontier :=
    hordered ▸ Sorting.byInsertion_perm _ state.frontier
  have hnames : (state.visited ++ [node.label] ++ rest.map (·.label)).Perm
      (Point.names ⟨taken, .between, state⟩) := by
    simp only [Point.names, Stage.kept, List.append_nil, List.append_assoc]
    exact (hperm.map (·.label)).append_left state.visited
  have hlabel : node.label ∉ state.visited := by
    have hnodup := hnames.nodup_iff.mpr h.nodup
    intro hmem
    exact (List.nodup_append.mp (List.nodup_append.mp hnodup).1).2.2 _ hmem _
      (List.mem_singleton_self _) rfl
  have hfresh : ∀ side, node.label ++ [side] ∉
      state.visited ++ [node.label] ++ rest.map (·.label) := fun side hmem =>
    hlabel (h.parent _ side (hnames.subset hmem))
  refine ⟨?_, ?_, ?_, ?_, ?_⟩
  · intro other hother
    refine h.agrees other (List.mem_append_left _ (hperm.subset ?_))
    rcases List.mem_append.mp hother with hother | hother
    · exact List.mem_cons_of_mem _ hother
    · exact List.mem_cons.mpr (Or.inl (List.mem_singleton.mp hother))
  · refine List.nodup_append.mpr ⟨hnames.nodup_iff.mpr h.nodup, by simp [Stage.kept], ?_⟩
    rintro old hold name hname rfl
    simp only [Stage.kept, List.mem_cons, List.not_mem_nil, or_false] at hname
    rcases hname with rfl | rfl
    · exact hfresh _ hold
    · exact hfresh _ hold
  · intro parent side hmem
    rcases List.mem_append.mp hmem with hold | hnew
    · exact List.mem_append_left _ (h.parent parent side (hnames.subset hold))
    · refine List.mem_append_right _ (List.mem_singleton.mpr ?_)
      simp only [Stage.kept, List.mem_cons, List.not_mem_nil, or_false] at hnew
      rcases hnew with hnew | hnew
      · exact (List.append_inj' hnew rfl).1
      · exact (List.append_inj' hnew rfl).1
  · refine h.first.snoc fun parent side hparent => h.parent parent side ?_
    rw [← hparent]
    exact hnames.subset (by simp)
  · simpa using hcap

/-- A node that is not split gives up the names kept for its children. -/
theorem Sound.release {taken : List (Node α)} {state next : State α} {node : Node α}
    (h : Sound setting ⟨taken, .taken node, state⟩) (hvisited : next.visited = state.visited)
    (hfrontier : next.frontier = state.frontier) : Sound setting ⟨taken, .between, next⟩ := by
  refine h.of_subperm hvisited (List.Sublist.subperm ?_) ?_
  · simp [Point.names, Stage.kept, hvisited, hfrontier]
  · intro other hother
    refine h.agrees other (List.mem_append_left _ ?_)
    simpa [Point.live, Stage.held, hfrontier] using hother

/-- **Every move keeps what holds of the nodes.** -/
theorem Sound.step (h : Sound setting p) (hmove : Step setting p q) : Sound setting q := by
  cases hmove with
  | take hcap hordered => exact h.take hcap hordered
  | prune _ => exact h.release rfl rfl
  | accept _ _ => exact h.release rfl rfl
  | split _ _ => exact h.of_subperm rfl (List.Subperm.refl _) h.agrees
  | left _ hadd => exact h.addChild rfl (by simp [Stage.held]) rfl hadd
  | right _ hadd => exact h.addChild rfl (by simp [Stage.held]) rfl hadd

theorem Passes.sound (h : Passes setting p) : Sound setting p := by
  refine Passes.induction (P := Sound setting) ?_ (fun p q _ hp hmove => hp.step hmove) h
  rintro p ⟨-, -, -, -, -⟩
  refine ⟨?_, by simp [Point.names, Stage.kept], ?_, ParentsFirst.nil, Nat.zero_le _⟩
  · intro node hnode
    obtain rfl : node = _ := by simpa [Point.live, Stage.held] using hnode
    exact ⟨rfl, rfl, rfl⟩
  · intro parent side hmem
    simp [Point.names, Stage.kept, Setting.rootNode] at hmem

theorem Sound.consistent (h : Sound setting p) : Consistent setting.model p.state := by
  have hagrees : ∀ node ∈ p.state.frontier, node.Agrees setting.model := fun node hnode =>
    h.agrees node (List.mem_append_left _ hnode)
  refine ⟨fun node hnode => ?_, fun node hnode => (hagrees node hnode).problem_eq, ?_, ?_⟩
  · have hnode := hagrees node hnode
    exact ⟨hnode.depth_eq, by rw [hnode.depth_eq, hnode.label_eq, List.length_map]⟩
  · exact (List.nodup_append.mp h.nodup).1.map Label.text_injective
  · exact fun parent side hmem => h.parent parent side (List.mem_append_left _ hmem)

end Moves

/-- **The nodes of a search are consistent**, at every point that it passes; the nodes visited in the
end are at most as many as the cap says, differ in name, and come after their parents. -/
theorem searchWith_consistent (observer : Observer) (opts : Options α) (solver : Solver α)
    (model : Model α) (hcap : 1 ≤ opts.maxNodes) :
    (∀ p, Passes ⟨observer, opts, solver, model⟩ p → Consistent model p.state) ∧
      ∃ outcome, (searchWith observer opts solver model).outcome = .ok outcome ∧
        outcome.visited.length ≤ opts.maxNodes ∧ (outcome.visited.map Label.text).Nodup ∧
        ParentsFirst outcome.visited := by
  refine ⟨fun p hp => hp.sound.consistent, ?_⟩
  obtain ⟨outcome, houtcome, hcloses⟩ := exists_closes_searchWith observer opts solver model
  refine ⟨outcome, houtcome, ?_⟩
  cases hcloses with
  | failed => exact ⟨Nat.zero_le _, List.nodup_nil, ParentsFirst.nil⟩
  | root | whole => exact ⟨hcap, List.nodup_singleton _, ParentsFirst.nil.snoc (by simp)⟩
  | searched hpasses _ _ hend =>
    rw [(conclude_cases hend).1]
    have hsound := hpasses.sound
    refine ⟨hsound.capped, ?_, hsound.first⟩
    have hdistinct := hsound.consistent.distinct
    rw [List.map_append] at hdistinct
    exact (List.nodup_append.mp hdistinct).1

/-- The search of `halfModel` passes the point at which it has visited the root and its child on the
left, and no node is open. -/
theorem searchWith_consistent_halfModel :
    1 ≤ ({} : Options ℚ).maxNodes ∧
      (∀ p, Passes halfSetting p → Consistent halfModel p.state) ∧
      (∃ p, Passes halfSetting p ∧ p.state.visited = [[], [.left]]) ∧
      ∃ outcome, (searchWith .silent {} halfSolver halfModel).outcome = .ok outcome ∧
        outcome.visited = [[], [.left]] ∧ (outcome.visited.map Label.text).Nodup ∧
        ParentsFirst outcome.visited := by
  have hcap : 1 ≤ ({} : Options ℚ).maxNodes := by decide
  obtain ⟨hpoints, outcome, houtcome, -, hnodup, hfirst⟩ :=
    searchWith_consistent .silent {} halfSolver halfModel hcap
  have hvalues : ((searchWith .silent {} halfSolver halfModel).outcome.map (·.visited)) =
      .ok [[], [.left]] := by
    decide +kernel
  rw [houtcome] at hvalues
  have hvisited : outcome.visited = [[], [.left]] := Except.ok.inj hvalues
  refine ⟨hcap, hpoints, ?_, outcome, houtcome, hvisited, hnodup, hfirst⟩
  obtain ⟨outcome', houtcome', hcloses⟩ := exists_closes_searchWith .silent {} halfSolver halfModel
  obtain rfl := Except.ok.inj (houtcome.symm.trans houtcome')
  cases hcloses with
  | failed | root | whole => simp at hvisited
  | searched hpasses _ _ hend => exact ⟨_, hpasses, (conclude_cases hend).1.symm.trans hvisited⟩

end BranchAndBound

end Nodes

end LinOpt
