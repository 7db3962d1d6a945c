import Gylo.Client.Enqueue
import Gylo.Lib.Dags

/-! # Workflows out of workflows

`chain`, `group` and `chord` copy the graphs they are given into one, moving the numbers
of the nodes, and `chain` and `chord` join the leaves of what came before to the roots of
what follows. The loops are followed here as they run; what they build is the series
or the juxtaposition of graphs, from which its order is read off. -/
namespace Gylo.Client.Composition

open Dags Relation

variable {A : Type}

/-! ## The constructors -/

@[ext] structure Workflow (A : Type) where
  nodes : List (Signature A)
  edges : Finset (Nat × Nat)

namespace Workflow

/-- `Workflow()` -/
def new : Workflow A := ⟨[], ∅⟩

/-- `_absorb`, with the graph it leaves and the list it returns. -/
def absorb (flow other : Workflow A) : Workflow A × List Nat :=
  let offset := flow.nodes.length
  (⟨flow.nodes ++ other.nodes,
    flow.edges ∪ other.edges.image fun edge => (edge.1 + offset, edge.2 + offset)⟩,
    List.range' offset other.nodes.length)

def roots (flow : Workflow A) : List Nat :=
  let blocked := flow.edges.image Prod.snd
  (List.range flow.nodes.length).filter fun i => i ∉ blocked

def leaves (flow : Workflow A) : List Nat :=
  let parents := flow.edges.image Prod.fst
  (List.range flow.nodes.length).filter fun i => i ∉ parents

/-- The loops that add an edge from each of the one list to each of the other. -/
def connect (tails heads : List Nat) (flow : Workflow A) : Workflow A :=
  { flow with
    edges := tails.foldl (fun edges parent =>
      heads.foldl (fun edges head => Insert.insert (parent, head) edges) edges) flow.edges }

/-- One job comes before another. -/
def Path (flow : Workflow A) : Nat → Nat → Prop := TransGen fun parent child => (parent, child) ∈ flow.edges

end Workflow

open Workflow

/-- What the constructors take. -/
inductive Item (A : Type) where
  | signature (s : Signature A)
  | workflow (w : Workflow A)

/-- `_as_workflow` -/
def Item.asWorkflow : Item A → Workflow A
  | .signature s => ⟨[s], ∅⟩
  | .workflow w => w

/-- The round of `chain` for one step: the flow so far, with its `tails`. -/
def chainStep (state : Workflow A × List Nat) (step : Item A) : Workflow A × List Nat :=
  let sub := step.asWorkflow
  if sub.nodes.isEmpty then state
  else
    let offset := state.1.nodes.length
    let heads := sub.roots.map (offset + ·)
    let nextTails := sub.leaves.map (offset + ·)
    (connect state.2 heads (state.1.absorb sub).1, nextTails)

def chain (steps : List (Item A)) : Workflow A := (steps.foldl chainStep (new, [])).1

def group (branches : List (Item A)) : Workflow A :=
  branches.foldl (fun flow branch => (flow.absorb branch.asWorkflow).1) new

/-- The callback is the one node that is added. -/
def chord (body : Item A) (callback : Signature A) : Workflow A :=
  let flow := body.asWorkflow
  let tails := flow.leaves
  let added := flow.absorb ⟨[callback], ∅⟩
  connect tails (added.2.take 1) added.1

/-- The workflows the constructors build from signatures. -/
inductive Built : Workflow A → Prop
  | chain {steps : List (Item A)} (h : ∀ w, Item.workflow w ∈ steps → Built w) : Built (chain steps)
  | group {branches : List (Item A)} (h : ∀ w, Item.workflow w ∈ branches → Built w) : Built (group branches)
  | chord {body : Item A} {callback : Signature A} (h : ∀ w, body = .workflow w → Built w) :
    Built (chord body callback)

def Item.Built : Item A → Prop
  | .signature _ => True
  | .workflow w => Composition.Built w

/-! ## The graph of a workflow -/

/-- The workflow is a numbered graph whose edges go up. -/
structure Workflow.HasGraph (w : Workflow A) (d : Dag) : Prop where
  size : w.nodes.length = d.size
  edges : w.edges = d.edges

section
variable {w x : Workflow A} {d e : Dag} {i : Nat}

theorem Workflow.HasGraph.path (h : w.HasGraph d) : w.Path = d.Path := by
  unfold Workflow.Path Dag.Path Dag.Edge
  rw [h.edges]

theorem Workflow.HasGraph.upward (h : w.HasGraph d) {p c : Nat} (hedge : (p, c) ∈ w.edges) :
    p < c ∧ c < w.nodes.length := by
  rw [h.size]
  exact d.upward (h.edges ▸ hedge)

theorem Workflow.HasGraph.mem_leaves (h : w.HasGraph d) : i ∈ w.leaves ↔ i ∈ d.leaves := by
  simp [Workflow.leaves, Dag.leaves, h.size, h.edges]

theorem Workflow.HasGraph.mem_roots (h : w.HasGraph d) : i ∈ w.roots ↔ i ∈ d.roots := by
  simp [Workflow.roots, Dag.roots, h.size, h.edges]

theorem new_hasGraph : (new : Workflow A).HasGraph .empty := ⟨rfl, rfl⟩

theorem single_hasGraph (s : Signature A) : (⟨[s], ∅⟩ : Workflow A).HasGraph .single := ⟨rfl, rfl⟩

theorem mem_connect {tails heads : List Nat} {edge : Nat × Nat} :
    edge ∈ (w.connect tails heads).edges ↔ edge ∈ w.edges ∨ edge.1 ∈ tails ∧ edge.2 ∈ heads := by
  have hinner : ∀ (heads : List Nat) (parent : Nat) (edges : Finset (Nat × Nat)),
      edge ∈ heads.foldl (fun edges head => Insert.insert (parent, head) edges) edges ↔
        edge ∈ edges ∨ edge.1 = parent ∧ edge.2 ∈ heads := by
    intro heads parent
    induction heads with
    | nil => simp
    | cons head heads ih =>
      intro edges
      rw [List.foldl_cons, ih, Finset.mem_insert, List.mem_cons, Prod.ext_iff]
      tauto
  have houter : ∀ (tails : List Nat) (edges : Finset (Nat × Nat)),
      edge ∈ tails.foldl (fun edges parent =>
        heads.foldl (fun edges head => Insert.insert (parent, head) edges) edges) edges ↔
        edge ∈ edges ∨ edge.1 ∈ tails ∧ edge.2 ∈ heads := by
    intro tails
    induction tails with
    | nil => simp
    | cons tail tails ih =>
      intro edges
      rw [List.foldl_cons, ih, hinner, List.mem_cons]
      tauto
  exact houter tails w.edges

/-- Copying a graph in puts it beside what is there. -/
theorem absorb_hasGraph (hw : w.HasGraph d) (hx : x.HasGraph e) :
    (w.absorb x).1.HasGraph (d.beside e) where
  size := by
    rw [absorb, List.length_append, hw.size, hx.size]
    rfl
  edges := by
    ext ⟨p, c⟩
    show _ ↔ (d.beside e).Edge p c
    simp only [absorb, hw.size, hw.edges, hx.edges, Finset.mem_union, Finset.mem_image, Prod.mk.injEq,
      Prod.exists, Dag.beside_edge_iff, Nat.add_comm _ d.size]
    refine or_congr_right (exists₂_congr fun _ _ => and_congr_right fun _ => ?_)
    exact and_congr eq_comm eq_comm

/-- With the leaves of what is there joined to its roots, it follows in series. -/
theorem connect_absorb_hasGraph (hw : w.HasGraph d) (hx : x.HasGraph e) {tails heads : List Nat}
    (htails : ∀ i, i ∈ tails ↔ i ∈ d.leaves) (hheads : ∀ i, i ∈ heads ↔ ∃ r ∈ e.roots, i = d.size + r) :
    (connect tails heads (w.absorb x).1).HasGraph (d.series e) where
  size := (absorb_hasGraph hw hx).size
  edges := by
    ext ⟨p, c⟩
    have hbeside : (p, c) ∈ (w.absorb x).1.edges ↔ (d.beside e).Edge p c := by
      rw [(absorb_hasGraph hw hx).edges]
      rfl
    show _ ↔ (d.series e).Edge p c
    rw [mem_connect, hbeside, Dag.beside_edge_iff, Dag.series_edge_iff, or_assoc, htails, hheads]
    refine or_congr_right (or_congr_right ?_)
    exact ⟨fun ⟨hp, r, hr, hc⟩ => ⟨r, ⟨hp, hr⟩, hc⟩, fun ⟨r, ⟨hp, hr⟩, hc⟩ => ⟨hp, r, hr, hc⟩⟩
end

/-! ## What the loops build -/

section
variable {items : List (Item A)} {ds : List Dag}

/-- The graphs of a list of items. -/
abbrev Graphs (items : List (Item A)) (ds : List Dag) : Prop :=
  List.Forall₂ (fun item d => item.asWorkflow.HasGraph d) items ds

/-- The flow of a chain has a graph, and its tails are the leaves of that graph. -/
structure Tailed (state : Workflow A × List Nat) (d : Dag) : Prop where
  graph : state.1.HasGraph d
  tails : ∀ i, i ∈ state.2 ↔ i ∈ d.leaves

theorem chainStep_tailed {state : Workflow A × List Nat} {step : Item A} {d e : Dag}
    (hstate : Tailed state d) (hstep : step.asWorkflow.HasGraph e) :
    Tailed (chainStep state step) (d.series e) := by
  have hsize := hstep.size
  unfold chainStep
  simp only [List.isEmpty_iff]
  split
  next hempty =>
    rw [hempty] at hsize
    rw [Dag.eq_empty_of_size hsize.symm, Dag.series_empty]
    exact hstate
  next hnodes =>
    have he : 0 < e.size := by
      rw [← hsize]
      exact List.length_pos_iff.mpr hnodes
    refine ⟨connect_absorb_hasGraph hstate.graph hstep hstate.tails fun i => ?_, fun i => ?_⟩
    · simp only [List.mem_map, hstep.mem_roots, hstate.graph.size, eq_comm]
    · rw [Dag.mem_leaves_series he]
      simp only [List.mem_map, hstep.mem_leaves, hstate.graph.size, eq_comm]

theorem chain_hasGraph (h : Graphs items ds) : (chain items).HasGraph (joined Dag.series ds) := by
  have hnew : Tailed ((new, []) : Workflow A × List Nat) .empty :=
    ⟨new_hasGraph, fun _ => iff_of_false List.not_mem_nil Dag.not_mem_leaves_empty⟩
  have hloop : Tailed (items.foldl chainStep (new, [])) (joined Dag.series ds) :=
    List.rel_foldl (fun _ _ hstate _ _ hitem => chainStep_tailed hstate hitem) hnew h
  exact hloop.graph

theorem group_hasGraph (h : Graphs items ds) : (group items).HasGraph (joined Dag.beside ds) := by
  have hstep : ∀ (flow : Workflow A) (d : Dag), flow.HasGraph d → ∀ (branch : Item A) (e : Dag),
      branch.asWorkflow.HasGraph e → (flow.absorb branch.asWorkflow).1.HasGraph (d.beside e) :=
    fun _ _ hflow _ _ hbranch => absorb_hasGraph hflow hbranch
  exact List.rel_foldl hstep new_hasGraph h

/-- A chord is its body with the callback in series. -/
theorem chord_hasGraph {body : Item A} {d : Dag} (callback : Signature A) (h : body.asWorkflow.HasGraph d) :
    (chord body callback).HasGraph (d.series .single) := by
  refine connect_absorb_hasGraph h (single_hasGraph callback) (fun _ => h.mem_leaves) fun i => ?_
  simp [absorb, h.size]

/-- A loop that adds the nodes of each item has all of them in the end. -/
theorem foldl_nodes {σ : Type} (nodes : σ → List (Signature A)) {step : σ → Item A → σ}
    (hstep : ∀ state item, nodes (step state item) = nodes state ++ item.asWorkflow.nodes)
    (items : List (Item A)) (state : σ) :
    nodes (items.foldl step state) = nodes state ++ items.flatMap fun item => item.asWorkflow.nodes := by
  induction items generalizing state with
  | nil => exact (List.append_nil _).symm
  | cons item items ih => rw [List.foldl_cons, ih, hstep, List.flatMap_cons, List.append_assoc]

theorem chain_nodes (items : List (Item A)) :
    (chain items).nodes = items.flatMap fun item => item.asWorkflow.nodes := by
  have hstep : ∀ (state : Workflow A × List Nat) (item : Item A),
      (chainStep state item).1.nodes = state.1.nodes ++ item.asWorkflow.nodes := by
    intro state item
    simp only [chainStep, List.isEmpty_iff]
    split
    next hempty => rw [hempty, List.append_nil]
    next => rfl
  exact foldl_nodes (fun state => state.1.nodes) hstep items (new, [])

theorem group_nodes (items : List (Item A)) :
    (group items).nodes = items.flatMap fun item => item.asWorkflow.nodes :=
  foldl_nodes Workflow.nodes (fun _ _ => rfl) items new

theorem exists_graphs (h : ∀ item ∈ items, ∃ d, item.asWorkflow.HasGraph d) : ∃ ds, Graphs items ds := by
  induction items with
  | nil => exact ⟨[], .nil⟩
  | cons item items ih =>
    obtain ⟨hitem, hitems⟩ := List.forall_mem_cons.mp h
    obtain ⟨d, hd⟩ := hitem
    obtain ⟨ds, hds⟩ := ih hitems
    exact ⟨d :: ds, .cons hd hds⟩

theorem item_hasGraph {item : Item A} (h : ∀ w, item = .workflow w → ∃ d, w.HasGraph d) :
    ∃ d, item.asWorkflow.HasGraph d := by
  cases item with
  | signature s => exact ⟨_, single_hasGraph s⟩
  | workflow w => exact h w rfl

/-- Whatever the constructors build is such a graph. -/
theorem Built.hasGraph {w : Workflow A} (h : Built w) : ∃ d, w.HasGraph d := by
  induction h with
  | chain _ ih =>
    obtain ⟨ds, hds⟩ := exists_graphs fun item hitem => item_hasGraph fun w hw => ih w (hw ▸ hitem)
    exact ⟨_, chain_hasGraph hds⟩
  | group _ ih =>
    obtain ⟨ds, hds⟩ := exists_graphs fun item hitem => item_hasGraph fun w hw => ih w (hw ▸ hitem)
    exact ⟨_, group_hasGraph hds⟩
  | chord _ ih =>
    obtain ⟨d, hd⟩ := item_hasGraph ih
    exact ⟨_, chord_hasGraph _ hd⟩

theorem Item.Built.hasGraph {item : Item A} (h : item.Built) : ∃ d, item.asWorkflow.HasGraph d :=
  item_hasGraph fun _ hw => Composition.Built.hasGraph (hw ▸ h : Item.Built (.workflow _))

theorem graphs_of_built (h : ∀ item ∈ items, item.Built) : ∃ ds, Graphs items ds :=
  exists_graphs fun item hitem => (h item hitem).hasGraph
end

/-! ## The order of the parts -/

def Item.size (item : Item A) : Nat := item.asWorkflow.nodes.length

/-- Where the nodes of one of the parts start. -/
def start (items : List (Item A)) (i : Nat) : Nat := ((items.take i).map Item.size).sum

/-- The workflow has the nodes of its parts, one after the other. A node comes before one of
its own part exactly if it does so there, before those of the later parts if the parts
are in order, and never before one of an earlier part. -/
structure Parts (items : List (Item A)) (w : Workflow A) (ordered : Prop) : Prop where
  nodes : w.nodes = items.flatMap fun item => item.asWorkflow.nodes
  path : ∀ {i j : Nat} (hi : i < items.length) (hj : j < items.length) {u v : Nat},
    u < (items[i]).size → v < (items[j]).size →
      (w.Path (start items i + u) (start items j + v) ↔
        i < j ∧ ordered ∨ i = j ∧ (items[i]).asWorkflow.Path u v)

theorem Graphs.sizes {items : List (Item A)} {ds : List Dag} (h : Graphs items ds) :
    items.map Item.size = ds.map Dag.size := by
  induction h with
  | nil => rfl
  | cons hitem _ ih => rw [List.map_cons, List.map_cons, ih, Item.size, hitem.size]

theorem Graphs.start_eq {items : List (Item A)} {ds : List Dag} (h : Graphs items ds) (i : Nat) :
    start items i = offset ds i := by
  rw [start, offset, List.map_take, List.map_take, h.sizes]

/-- A constructor puts the nodes of its parts in a row and their graphs together. -/
structure Makes (make : List (Item A) → Workflow A) (op : Dag → Dag → Dag) : Prop where
  nodes : ∀ items, (make items).nodes = items.flatMap fun item => item.asWorkflow.nodes
  graph : ∀ {items ds}, Graphs items ds → (make items).HasGraph (joined op ds)

theorem makes_chain : Makes (chain : List (Item A) → Workflow A) Dag.series := ⟨chain_nodes, chain_hasGraph⟩

theorem makes_group : Makes (group : List (Item A) → Workflow A) Dag.beside := ⟨group_nodes, group_hasGraph⟩

theorem Makes.parts {make : List (Item A) → Workflow A} {op : Dag → Dag → Dag} {ordered : Prop}
    (h : Makes make op) (hop : Joins op ordered) {items : List (Item A)}
    (hitems : ∀ item ∈ items, item.Built) : Parts items (make items) ordered where
  nodes := h.nodes items
  path {i j} hi hj {u v} hu hv := by
    obtain ⟨ds, hds⟩ := graphs_of_built hitems
    have hlength := hds.length_eq
    have hgraph : ∀ {k} (hk : k < items.length), (items[k]).asWorkflow.HasGraph (ds[k]) :=
      fun hk => hds.get hk (hlength ▸ hk)
    rw [(h.graph hds).path, hds.start_eq, hds.start_eq, (hgraph hi).path]
    refine hop.path_joined (hlength ▸ hi) (hlength ▸ hj) ?_ ?_
    · exact (hgraph hi).size ▸ hu
    · exact (hgraph hj).size ▸ hv

/-- A callback that waits for all of a body, whose order is as it was. -/
structure Awaits (body : Item A) (callback : Signature A) (w : Workflow A) : Prop where
  nodes : w.nodes = body.asWorkflow.nodes ++ [callback]
  after : ∀ u < body.size, w.Path u body.size
  path : ∀ u v, u < body.size → v < body.size → (w.Path u v ↔ body.asWorkflow.Path u v)

/-- **Composition has the promised order.** Every edge of a workflow the constructors have
built goes up, within its nodes. The steps of a chain come in order, whatever is
empty between them, the branches of a group have nothing to do with each other, and the
callback of a chord comes after all of its body. -/
theorem composition_order (A : Type) :
    (∀ w : Workflow A, Built w → ∀ p c, (p, c) ∈ w.edges → p < c ∧ c < w.nodes.length) ∧
      (∀ steps : List (Item A), (∀ step ∈ steps, step.Built) → Parts steps (chain steps) True) ∧
      (∀ branches : List (Item A), (∀ branch ∈ branches, branch.Built) →
        Parts branches (group branches) False) ∧
      ∀ (body : Item A) (callback : Signature A), body.Built → Awaits body callback (chord body callback) := by
  refine ⟨fun w hw p c hedge => ?_, fun steps hsteps => makes_chain.parts joins_series hsteps,
    fun branches hbranches => makes_group.parts joins_beside hbranches, fun body callback hbody => ?_⟩
  · obtain ⟨d, hd⟩ := hw.hasGraph
    exact hd.upward hedge
  · obtain ⟨d, hd⟩ := hbody.hasGraph
    have hchord := chord_hasGraph callback hd
    have hsize : body.size = d.size := hd.size
    refine ⟨rfl, fun u hu => ?_, fun u v _ hv => ?_⟩
    · rw [hchord.path, hsize]
      exact Dag.path_series (e := .single) (hsize ▸ hu) Nat.zero_lt_one
    · rw [hchord.path, hd.path]
      exact Dag.path_link_left (hsize ▸ hv)

def stepA : Signature Unit := ⟨⟨"tests.step_a", false⟩, (), {}⟩

def stepB : Signature Unit := ⟨⟨"tests.step_b", false⟩, (), {}⟩

def stepC : Signature Unit := ⟨⟨"tests.step_c", false⟩, (), {}⟩

/-- A chain of graphs connects leaves to roots. -/
example : (chain [.workflow (group [.signature stepA, .signature stepB]), .signature stepC]).edges =
    {(0, 2), (1, 2)} := by decide

/-! ## The laws -/

/-- One graph and one list of nodes make one workflow. -/
theorem Workflow.HasGraph.unique {w x : Workflow A} {d : Dag} (hw : w.HasGraph d) (hx : x.HasGraph d)
    (hnodes : w.nodes = x.nodes) : w = x :=
  Workflow.ext hnodes (hw.edges.trans hx.edges.symm)

section
variable {make : List (Item A) → Workflow A} {op : Dag → Dag → Dag} {ordered : Prop}
  {xs ys : List (Item A)} {item : Item A}

theorem Makes.pair (h : Makes make op) (hop : Joins op ordered) {x y : Item A} {d e : Dag}
    (hx : x.asWorkflow.HasGraph d) (hy : y.asWorkflow.HasGraph e) :
    (make [x, y]).HasGraph (op d e) ∧ (make [x, y]).nodes = x.asWorkflow.nodes ++ y.asWorkflow.nodes := by
  have hgraph := h.graph (List.Forall₂.cons hx (.cons hy .nil))
  rw [hop.joined_cons, hop.joined_cons, joined_nil, hop.empty_right] at hgraph
  refine ⟨hgraph, ?_⟩
  rw [h.nodes, List.flatMap_cons, List.flatMap_cons, List.flatMap_nil, List.append_nil]

theorem Makes.append (h : Makes make op) (hop : Joins op ordered) (hxs : ∀ item ∈ xs, item.Built)
    (hys : ∀ item ∈ ys, item.Built) : make [.workflow (make xs), .workflow (make ys)] = make (xs ++ ys) := by
  obtain ⟨ds, hds⟩ := graphs_of_built hxs
  obtain ⟨es, hes⟩ := graphs_of_built hys
  obtain ⟨hgraph, hnodes⟩ := h.pair hop (x := .workflow (make xs)) (y := .workflow (make ys))
    (h.graph hds) (h.graph hes)
  rw [← hop.joined_append] at hgraph
  refine hgraph.unique (h.graph (List.rel_append hds hes)) ?_
  rw [hnodes, h.nodes (xs ++ ys), List.flatMap_append, ← h.nodes, ← h.nodes]
  rfl

theorem Makes.nil (h : Makes make op) : (make []).HasGraph .empty ∧ (make []).nodes = [] :=
  ⟨h.graph .nil, h.nodes []⟩

/-- What is made of nothing adds nothing. -/
theorem Makes.identity (h : Makes make op) (hop : Joins op ordered) (hitem : item.Built) :
    make [.workflow (make []), item] = item.asWorkflow ∧ make [item, .workflow (make [])] = item.asWorkflow := by
  obtain ⟨d, hd⟩ := hitem.hasGraph
  obtain ⟨hempty, hnone⟩ := h.nil
  obtain ⟨hleft, hleftNodes⟩ := h.pair hop (x := .workflow (make [])) hempty hd
  obtain ⟨hright, hrightNodes⟩ := h.pair hop (y := .workflow (make [])) hd hempty
  rw [hop.empty_left] at hleft
  rw [hop.empty_right] at hright
  have hnone : (Item.workflow (make [])).asWorkflow.nodes = [] := hnone
  rw [hnone] at hleftNodes hrightNodes
  exact ⟨hleft.unique hd hleftNodes, hright.unique hd (hrightNodes.trans (List.append_nil _))⟩
end

/-- **Chains of chains are chains**, as groups of groups are groups, and the workflow with no
nodes that either makes of nothing adds nothing before or after. -/
theorem composition_laws {xs ys : List (Item A)} (hxs : ∀ item ∈ xs, item.Built)
    (hys : ∀ item ∈ ys, item.Built) {item : Item A} (hitem : item.Built) :
    (chain [.workflow (chain xs), .workflow (chain ys)] = chain (xs ++ ys) ∧
      group [.workflow (group xs), .workflow (group ys)] = group (xs ++ ys)) ∧
    (chain [.workflow (chain []), item] = item.asWorkflow ∧
      chain [item, .workflow (chain [])] = item.asWorkflow) ∧
    group [.workflow (group []), item] = item.asWorkflow ∧
      group [item, .workflow (group [])] = item.asWorkflow :=
  ⟨⟨makes_chain.append joins_series hxs hys, makes_group.append joins_beside hxs hys⟩,
    makes_chain.identity joins_series hitem, makes_group.identity joins_beside hitem⟩

theorem composition_laws_steps :
    chain [.workflow (chain [.signature stepA, .signature stepB]), .workflow (chain [.signature stepC])] =
        chain [.signature stepA, .signature stepB, .signature stepC] ∧
      chain [.workflow (chain []), .workflow (group [.signature stepA])] = group [.signature stepA] := by
  have hxs : ∀ item ∈ [Item.signature stepA, .signature stepB], item.Built := by simp [Item.Built]
  have hys : ∀ item ∈ [Item.signature stepC], item.Built := by simp [Item.Built]
  have hitem : (Item.workflow (group [.signature stepA])).Built := .group fun w hw => by simp at hw
  have hlaws := composition_laws hxs hys hitem
  exact ⟨hlaws.1.1, hlaws.2.1.1⟩

end Gylo.Client.Composition
