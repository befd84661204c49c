import FormulaNet.Proofs.Renaming
import FormulaNet.Proofs.Substitution

/-!
# What a rename changes

A rename looks at the children of the node only.  As these are all the nodes that refer to it, the tokens
by name of the node are replaced in every formula, and nothing else in any of them is:
`Net.run_renamedInto`.
-/

namespace FormulaNet.Net

/-- A node after the rename of a node: the new name is in the place of the tokens by which it was mentioned
by name, and its own name if this is the renamed node.  All else is as it was. -/
structure AfterRename (id : NodeId) (newName : String) (x : NodeId) (n n' : Node) : Prop where
  name : n'.name = if x = id then newName else n.name
  text : Substitution (retoken id (squeeze newName)) 0 n.input.toList n.content.refs
    0 n'.input.toList n'.content.refs
  result : n'.result = n.result
  parents : n'.parents = n.parents
  children : n'.children = n.children
  position : n'.position = n.position

/-- A net after the rename of one of its nodes. -/
structure RenamedInto (net : Net) (id : NodeId) (name : String) (net' : Net) : Prop where
  settings : net'.settings = net.settings
  indices : net'.nodes.ids = net.nodes.ids
  nodes : ∀ x n, net.node? x = some n → ∃ n', net'.node? x = some n' ∧ AfterRename id name x n n'

/-- The rename of a node to another name replaces the tokens that name it in all formulas, and changes
nothing else. -/
theorem run_renamedInto (settings : Settings) (ops : List Operation) {id : NodeId} {m : Node}
    (hm : (run settings ops).node? id = some m) {name : String} (hne : m.name ≠ name) {net' : Net}
    (hr : (run settings ops).rename id name = .ok net') :
    (run settings ops).RenamedInto id name net' := by
  obtain ⟨-, -, rfl⟩ := rename_eq_ok_of_ne hm hne hr
  constructor
  case settings => rfl
  case indices => exact Reaches.ids_renamed _ id m.children name
  case nodes =>
    intro x n hn
    refine ⟨_, (wired_run settings ops).node?_renamed hm name hn, ?_⟩
    exact ⟨rfl, n.content.substitution_replace _, rfl, rfl, rfl, rfl⟩

/-- A formula mentions a node by its name and by its index, next to a node with a longer name. -/
def mentioningTwice : List Operation :=
  [.create "Cost" 0 0, .create "Costs" 0 0, .create "Sum" 0 0, .submit 0 "3" false,
    .submit 2 "= @C ost*@0 - @Costs/@Cost" false]

theorem run_mentioningTwice :
    ∃ m net', (run .default mentioningTwice).node? 0 = some m ∧ m.name ≠ "Net cost" ∧
      (run .default mentioningTwice).rename 0 "Net cost" = .ok net' ∧
      (net'.node? 2).map Node.input = some "= @Netcost*@0 - @Costs/@Netcost" ∧
      (run .default mentioningTwice).RenamedInto 0 "Net cost" net' := by
  obtain ⟨m, hm⟩ : ∃ m, (run .default mentioningTwice).node? 0 = some m :=
    Option.isSome_iff_exists.1 (by decide +kernel)
  have hother : ∀ m ∈ (run .default mentioningTwice).node? 0, m.name ≠ "Net cost" := by decide +kernel
  obtain ⟨net', hr⟩ : ∃ net', (run .default mentioningTwice).rename 0 "Net cost" = .ok net' :=
    exists_of_isOk (by decide +kernel)
  have hinput : ∀ net' ∈ ((run .default mentioningTwice).rename 0 "Net cost").toOption,
      (net'.node? 2).map Node.input = some "= @Netcost*@0 - @Costs/@Netcost" := by decide +kernel
  exact ⟨m, net', hm, hother m hm, hr, hinput net' (by rw [hr]; rfl),
    run_renamedInto .default mentioningTwice hm (hother m hm) hr⟩

end FormulaNet.Net
