import Mathlib.Algebra.GroupWithZero.Nat
import Mathlib.Data.Finset.Prod
import Mathlib.Logic.Relation

/-! # Numbered graphs in series and side by side

A graph whose nodes are the numbers below its size and whose edges go up, so that it has
no cycle. Two of them are put side by side by moving the numbers of the second past the
first; in series, every leaf of the first is also joined to every root of the second.
Since every node leads to a leaf and is led to from a root, all of the first then comes
before all of the second. Both operations are associative, with the empty graph as
their identity. -/
namespace Dags

open Relation

@[ext] structure Dag where
  size : Nat
  edges : Finset (Nat × Nat)
  upward : ∀ {p c}, (p, c) ∈ edges → p < c ∧ c < size

namespace Dag

variable (d e f : Dag)

def Edge (p c : Nat) : Prop := (p, c) ∈ d.edges

/-- One node comes before another. -/
def Path : Nat → Nat → Prop := TransGen d.Edge

def leaves : Finset Nat := (Finset.range d.size).filter fun i => i ∉ d.edges.image Prod.fst

def roots : Finset Nat := (Finset.range d.size).filter fun i => i ∉ d.edges.image Prod.snd

def empty : Dag := ⟨0, ∅, fun h => absurd h (Finset.notMem_empty _)⟩

def single : Dag := ⟨1, ∅, fun h => absurd h (Finset.notMem_empty _)⟩

section
variable {d : Dag} {p c u v : Nat}

theorem mem_leaves : u ∈ d.leaves ↔ u < d.size ∧ ∀ c, ¬ d.Edge u c := by
  simp [leaves, Edge]

theorem mem_roots : u ∈ d.roots ↔ u < d.size ∧ ∀ p, ¬ d.Edge p u := by
  simp [roots, Edge]

theorem Path.bounds (h : d.Path u v) : u < v ∧ v < d.size := by
  induction h with
  | single hedge => exact d.upward hedge
  | tail _ hedge ih => exact ⟨Nat.lt_trans ih.1 (d.upward hedge).1, (d.upward hedge).2⟩

theorem eq_empty_of_size (h : d.size = 0) : d = empty := by
  refine Dag.ext h (Finset.eq_empty_of_forall_notMem ?_)
  intro edge hedge
  have hsize := (d.upward hedge).2
  omega

/-- Every node leads to a leaf. -/
theorem exists_leaf (hu : u < d.size) : ∃ l ∈ d.leaves, ReflTransGen d.Edge u l := by
  -- edges go up, so the distance to the end shrinks along a path
  induction hn : d.size - u using Nat.strong_induction_on generalizing u with
  | _ n ih =>
    by_cases hleaf : ∃ c, d.Edge u c
    · obtain ⟨c, hedge⟩ := hleaf
      obtain ⟨huc, hc⟩ := d.upward hedge
      obtain ⟨l, hl, hpath⟩ := ih (d.size - c) (by omega) hc rfl
      exact ⟨l, hl, ReflTransGen.head hedge hpath⟩
    · exact ⟨u, mem_leaves.mpr ⟨hu, not_exists.mp hleaf⟩, ReflTransGen.refl⟩

/-- Every node is led to from a root. -/
theorem exists_root (hu : u < d.size) : ∃ r ∈ d.roots, ReflTransGen d.Edge r u := by
  induction u using Nat.strong_induction_on with
  | _ u ih =>
    by_cases hroot : ∃ p, d.Edge p u
    · obtain ⟨p, hedge⟩ := hroot
      have hpu := (d.upward hedge).1
      obtain ⟨r, hr, hpath⟩ := ih p hpu (Nat.lt_trans hpu hu)
      exact ⟨r, hr, ReflTransGen.tail hpath hedge⟩
    · exact ⟨u, mem_roots.mpr ⟨hu, not_exists.mp hroot⟩, ReflTransGen.refl⟩
end

/-! ## One graph after another -/

/-- The second graph past the first, with edges from the one to the other. -/
def link (links : Finset (Nat × Nat)) (h : ∀ edge ∈ links, edge.1 < d.size ∧ edge.2 < e.size) : Dag where
  size := d.size + e.size
  edges := d.edges ∪ e.edges.image (Prod.map (d.size + ·) (d.size + ·)) ∪
    links.image (Prod.map id (d.size + ·))
  upward := by
    intro p c hedge
    simp only [Finset.mem_union, Finset.mem_image, Prod.map_apply, Prod.exists, Prod.mk.injEq] at hedge
    rcases hedge with (hedge | ⟨p, c, hedge, rfl, rfl⟩) | ⟨p, c, hedge, rfl, rfl⟩
    · have hup := d.upward hedge
      omega
    · have hup := e.upward hedge
      omega
    · have hbounds := h _ hedge
      dsimp only [id] at hbounds ⊢
      omega

/-- Side by side. -/
def beside : Dag := link d e ∅ fun _ h => absurd h (Finset.notMem_empty _)

/-- In series. -/
def series : Dag := link d e (d.leaves ×ˢ e.roots) fun _ h =>
  ⟨(mem_leaves.mp (Finset.mem_product.mp h).1).1, (mem_roots.mp (Finset.mem_product.mp h).2).1⟩

section
variable {d e : Dag} {links : Finset (Nat × Nat)}
  {h : ∀ edge ∈ links, edge.1 < d.size ∧ edge.2 < e.size} {p c u v : Nat}

theorem link_edge_iff : (link d e links h).Edge p c ↔ d.Edge p c ∨
    (∃ p' c', e.Edge p' c' ∧ p = d.size + p' ∧ c = d.size + c') ∨
      ∃ c', (p, c') ∈ links ∧ c = d.size + c' := by
  simp only [Edge, link, Finset.mem_union, Finset.mem_image, Prod.map_apply, Prod.exists, Prod.mk.injEq,
    or_assoc, id]
  refine or_congr_right (or_congr ?_ ?_)
  · exact exists₂_congr fun _ _ => and_congr_right fun _ => and_congr eq_comm eq_comm
  · constructor
    · intro ⟨p', c', hlink, hp, hc⟩
      exact ⟨c', hp ▸ hlink, hc.symm⟩
    · intro ⟨c', hlink, hc⟩
      exact ⟨p, c', hlink, rfl, hc.symm⟩

theorem link_edge_of_left (hedge : d.Edge p c) : (link d e links h).Edge p c := link_edge_iff.mpr (.inl hedge)

theorem link_edge_left (hc : c < d.size) : (link d e links h).Edge p c ↔ d.Edge p c := by
  rw [link_edge_iff]
  refine or_iff_left ?_
  intro hother
  rcases hother with ⟨p', c', -, -, rfl⟩ | ⟨c', -, rfl⟩
  · omega
  · omega

theorem link_edge_right : (link d e links h).Edge (d.size + p) c ↔ ∃ c', e.Edge p c' ∧ c = d.size + c' := by
  rw [link_edge_iff]
  constructor
  · intro hedge
    rcases hedge with hedge | ⟨p', c', hedge, hp, hc⟩ | ⟨c', hlink, -⟩
    · have hup := d.upward hedge
      omega
    · obtain rfl : p = p' := by omega
      exact ⟨c', hedge, hc⟩
    · have hbounds := h _ hlink
      dsimp only at hbounds
      omega
  · intro ⟨c', hedge, hc⟩
    exact .inr (.inl ⟨p, c', hedge, rfl, hc⟩)

theorem link_edge_of_right (hedge : e.Edge p c) : (link d e links h).Edge (d.size + p) (d.size + c) :=
  link_edge_right.mpr ⟨c, hedge, rfl⟩

theorem path_link_left (hv : v < d.size) : (link d e links h).Path u v ↔ d.Path u v := by
  constructor
  · intro hpath
    induction hpath with
    | single hedge => exact .single ((link_edge_left hv).mp hedge)
    | tail _ hedge ih =>
      have hedge := (link_edge_left hv).mp hedge
      exact .tail (ih (Nat.lt_trans (d.upward hedge).1 hv)) hedge
  · exact fun hpath => TransGen.mono (fun _ _ => link_edge_of_left) _ _ hpath

theorem path_link_right : (link d e links h).Path (d.size + u) (d.size + v) ↔ e.Path u v := by
  constructor
  · intro hpath
    have hend : ∀ {w}, (link d e links h).Path (d.size + u) w → ∃ v, w = d.size + v ∧ e.Path u v := by
      intro w hpath
      induction hpath with
      | single hedge =>
        obtain ⟨c, hedge, hc⟩ := link_edge_right.mp hedge
        exact ⟨c, hc, .single hedge⟩
      | tail _ hedge ih =>
        obtain ⟨b, rfl, hb⟩ := ih
        obtain ⟨c, hedge, hc⟩ := link_edge_right.mp hedge
        exact ⟨c, hc, .tail hb hedge⟩
    obtain ⟨w, hw, hpath⟩ := hend hpath
    obtain rfl : v = w := by omega
    exact hpath
  · exact fun hpath => TransGen.lift (d.size + ·) (fun _ _ => link_edge_of_right) _ _ hpath

/-- No edge leads out of the first of two graphs side by side. -/
theorem beside_edge_lt (hp : p < d.size) (hedge : (beside d e).Edge p c) : c < d.size := by
  rcases link_edge_iff.mp hedge with hedge | ⟨p', c', -, rfl, -⟩ | ⟨c', hlink, -⟩
  · exact (d.upward hedge).2
  · omega
  · exact absurd hlink (Finset.notMem_empty _)

theorem not_path_beside (hu : u < d.size) : ¬ (beside d e).Path u (d.size + v) := by
  intro hpath
  have hend : ∀ {w}, (beside d e).Path u w → w < d.size := by
    intro w hpath
    induction hpath with
    | single hedge => exact beside_edge_lt hu hedge
    | tail _ hedge ih => exact beside_edge_lt ih hedge
  have hbounds := hend hpath
  omega

/-- From the node to a leaf, from there to a root, from there to the node. -/
theorem path_series (hu : u < d.size) (hv : v < e.size) : (series d e).Path u (d.size + v) := by
  obtain ⟨l, hl, hfirst⟩ := exists_leaf hu
  obtain ⟨r, hr, hsecond⟩ := exists_root hv
  have hlink : (series d e).Edge l (d.size + r) :=
    link_edge_iff.mpr (.inr (.inr ⟨r, Finset.mem_product.mpr ⟨hl, hr⟩, rfl⟩))
  have hfirst : ReflTransGen (series d e).Edge u l :=
    ReflTransGen.mono (fun _ _ => link_edge_of_left) _ _ hfirst
  have hsecond : ReflTransGen (series d e).Edge (d.size + r) (d.size + v) :=
    ReflTransGen.lift (d.size + ·) (fun _ _ => link_edge_of_right) _ _ hsecond
  exact TransGen.trans_left (TransGen.tail' hfirst hlink) hsecond
end

/-! ## The laws -/

section
variable {d e f : Dag} {p c u : Nat}

theorem eq_of_edges (hsize : d.size = e.size) (h : ∀ p c, d.Edge p c ↔ e.Edge p c) : d = e :=
  Dag.ext hsize (Finset.ext fun edge => h edge.1 edge.2)

@[simp] theorem size_beside : (beside d e).size = d.size + e.size := rfl

@[simp] theorem size_series : (series d e).size = d.size + e.size := rfl

theorem beside_edge_iff : (beside d e).Edge p c ↔ d.Edge p c ∨
    ∃ p' c', e.Edge p' c' ∧ p = d.size + p' ∧ c = d.size + c' := by
  simp only [beside, link_edge_iff, Finset.notMem_empty, false_and, exists_false, or_false]

theorem series_edge_iff : (series d e).Edge p c ↔ d.Edge p c ∨
    (∃ p' c', e.Edge p' c' ∧ p = d.size + p' ∧ c = d.size + c') ∨
      ∃ c', (p ∈ d.leaves ∧ c' ∈ e.roots) ∧ c = d.size + c' := by
  simp only [series, link_edge_iff, Finset.mem_product]

theorem not_edge_empty : ¬ empty.Edge p c := Finset.notMem_empty _

theorem not_mem_leaves_empty : u ∉ empty.leaves := fun h => Nat.not_lt_zero _ (mem_leaves.mp h).1

theorem not_mem_roots_empty : u ∉ empty.roots := fun h => Nat.not_lt_zero _ (mem_roots.mp h).1

@[simp] theorem mem_roots_single : u ∈ single.roots ↔ u = 0 := by
  simp [roots, single]

theorem empty_beside (d : Dag) : beside empty d = d := by
  refine eq_of_edges (Nat.zero_add _) fun p c => ?_
  simp only [beside_edge_iff, not_edge_empty, false_or]
  simp [empty]

theorem beside_empty (d : Dag) : beside d empty = d := by
  refine eq_of_edges rfl fun p c => ?_
  simp only [beside_edge_iff, not_edge_empty, false_and, exists_false, or_false]

theorem empty_series (d : Dag) : series empty d = d := by
  refine eq_of_edges (Nat.zero_add _) fun p c => ?_
  simp only [series_edge_iff, not_edge_empty, not_mem_leaves_empty, false_and, exists_false, or_false,
    false_or]
  simp [empty]

theorem series_empty (d : Dag) : series d empty = d := by
  refine eq_of_edges rfl fun p c => ?_
  simp only [series_edge_iff, not_edge_empty, not_mem_roots_empty, and_false, false_and, exists_false,
    or_false]

theorem beside_assoc (d e f : Dag) : beside (beside d e) f = beside d (beside e f) := by
  refine eq_of_edges (Nat.add_assoc ..) fun p c => ?_
  simp only [beside_edge_iff, size_beside]
  constructor
  · intro hedge
    rcases hedge with (hedge | ⟨p, c, hedge, rfl, rfl⟩) | ⟨p, c, hedge, rfl, rfl⟩
    · exact .inl hedge
    · exact .inr ⟨p, c, .inl hedge, rfl, rfl⟩
    · exact .inr ⟨e.size + p, e.size + c, .inr ⟨p, c, hedge, rfl, rfl⟩, by omega, by omega⟩
  · intro hedge
    rcases hedge with hedge | ⟨p, c, hedge | ⟨p, c, hedge, rfl, rfl⟩, rfl, rfl⟩
    · exact .inl (.inl hedge)
    · exact .inl (.inr ⟨p, c, hedge, rfl, rfl⟩)
    · exact .inr ⟨p, c, hedge, by omega, by omega⟩

/-- The leaves are those of the second graph: every node of the first leads on. -/
theorem mem_leaves_series (he : 0 < e.size) : u ∈ (series d e).leaves ↔ ∃ l ∈ e.leaves, u = d.size + l := by
  constructor
  · intro hleaf
    obtain ⟨hu, hlast⟩ := mem_leaves.mp hleaf
    rcases Nat.lt_or_ge u d.size with hfirst | hsecond
    · -- it would be before the first node of the second graph
      obtain ⟨c, hedge, -⟩ := TransGen.head'_iff.mp (path_series hfirst he)
      exact absurd hedge (hlast c)
    · obtain ⟨l, rfl⟩ := Nat.exists_eq_add_of_le hsecond
      refine ⟨l, mem_leaves.mpr ⟨Nat.lt_of_add_lt_add_left hu, ?_⟩, rfl⟩
      exact fun c hedge => hlast _ (link_edge_of_right hedge)
  · intro ⟨l, hl, hu⟩
    obtain ⟨hsize, hlast⟩ := mem_leaves.mp hl
    rw [hu]
    refine mem_leaves.mpr ⟨Nat.add_lt_add_left hsize _, fun c hedge => ?_⟩
    obtain ⟨c', hedge, -⟩ := link_edge_right.mp hedge
    exact hlast c' hedge

/-- The roots are those of the first graph. -/
theorem mem_roots_series (hd : 0 < d.size) : u ∈ (series d e).roots ↔ u ∈ d.roots := by
  constructor
  · intro hroot
    obtain ⟨hu, hfirst⟩ := mem_roots.mp hroot
    rcases Nat.lt_or_ge u d.size with hlt | hsecond
    · exact mem_roots.mpr ⟨hlt, fun p hedge => hfirst p (link_edge_of_left hedge)⟩
    · obtain ⟨v, rfl⟩ := Nat.exists_eq_add_of_le hsecond
      obtain ⟨p, -, hedge⟩ := TransGen.tail'_iff.mp (path_series hd (Nat.lt_of_add_lt_add_left hu))
      exact absurd hedge (hfirst p)
  · intro hroot
    obtain ⟨hsize, hfirst⟩ := mem_roots.mp hroot
    refine mem_roots.mpr ⟨Nat.lt_add_right _ hsize, fun p hedge => ?_⟩
    exact hfirst p ((link_edge_left hsize).mp hedge)

theorem series_assoc (d e f : Dag) : series (series d e) f = series d (series e f) := by
  rcases Nat.eq_zero_or_pos e.size with hempty | he
  · rw [eq_empty_of_size hempty, series_empty, empty_series]
  · refine eq_of_edges (Nat.add_assoc ..) fun p c => ?_
    simp only [series_edge_iff, mem_leaves_series he, mem_roots_series he, size_series]
    constructor
    · intro hedge
      rcases hedge with (hedge | ⟨p, c, hedge, rfl, rfl⟩ | ⟨r, hjoin, rfl⟩) | ⟨p, c, hedge, rfl, rfl⟩ |
        ⟨r, ⟨⟨l, hl, rfl⟩, hr⟩, rfl⟩
      · exact .inl hedge
      · exact .inr (.inl ⟨p, c, .inl hedge, rfl, rfl⟩)
      · exact .inr (.inr ⟨r, hjoin, rfl⟩)
      · exact .inr (.inl ⟨e.size + p, e.size + c, .inr (.inl ⟨p, c, hedge, rfl, rfl⟩), by omega, by omega⟩)
      · exact .inr (.inl ⟨l, e.size + r, .inr (.inr ⟨r, ⟨hl, hr⟩, rfl⟩), rfl, by omega⟩)
    · intro hedge
      rcases hedge with hedge | ⟨p, c, hedge | ⟨p, c, hedge, rfl, rfl⟩ | ⟨r, ⟨hl, hr⟩, rfl⟩, rfl, rfl⟩ |
        ⟨r, hjoin, rfl⟩
      · exact .inl (.inl hedge)
      · exact .inl (.inr (.inl ⟨p, c, hedge, rfl, rfl⟩))
      · exact .inr (.inl ⟨p, c, hedge, by omega, by omega⟩)
      · exact .inr (.inr ⟨r, ⟨⟨p, hl, rfl⟩, hr⟩, by omega⟩)
      · exact .inl (.inr (.inr ⟨r, hjoin, rfl⟩))
end

end Dag

/-! ## Any number of graphs -/

section
variable {op : Dag → Dag → Dag}

/-- What an operation that puts one graph after another is to do: keep the paths of both,
and either lead from all of the first to all of the second or from nothing to
anything. -/
structure Joins (op : Dag → Dag → Dag) (across : Prop) : Prop where
  size : ∀ d e, (op d e).size = d.size + e.size
  assoc : ∀ d e f, op (op d e) f = op d (op e f)
  empty_left : ∀ d, op .empty d = d
  empty_right : ∀ d, op d .empty = d
  left : ∀ {d e u v}, v < d.size → ((op d e).Path u v ↔ d.Path u v)
  right : ∀ {d e u v}, (op d e).Path (d.size + u) (d.size + v) ↔ e.Path u v
  between : ∀ {d e u v}, u < d.size → v < e.size → ((op d e).Path u (d.size + v) ↔ across)

theorem joins_beside : Joins Dag.beside False where
  size _ _ := rfl
  assoc := Dag.beside_assoc
  empty_left := Dag.empty_beside
  empty_right := Dag.beside_empty
  left := Dag.path_link_left
  right := Dag.path_link_right
  between hu _ := iff_false_intro (Dag.not_path_beside hu)

theorem joins_series : Joins Dag.series True where
  size _ _ := rfl
  assoc := Dag.series_assoc
  empty_left := Dag.empty_series
  empty_right := Dag.series_empty
  left := Dag.path_link_left
  right := Dag.path_link_right
  between hu hv := iff_true_intro (Dag.path_series hu hv)

/-- One after the other, from the left. -/
def joined (op : Dag → Dag → Dag) (ds : List Dag) : Dag := ds.foldl op .empty

@[simp] theorem joined_nil : joined op [] = .empty := rfl

/-- Where a graph of the list starts. -/
def offset (ds : List Dag) (i : Nat) : Nat := ((ds.take i).map Dag.size).sum

namespace Joins

variable {across : Prop} (h : Joins op across)
include h

theorem foldl (ds : List Dag) (d : Dag) : ds.foldl op d = op d (joined op ds) := by
  induction ds generalizing d with
  | nil => exact (h.empty_right d).symm
  | cons e ds ih =>
    have hfirst : joined op (e :: ds) = op e (joined op ds) := by
      rw [joined, List.foldl_cons, ih, h.empty_left]
    rw [List.foldl_cons, ih, hfirst, h.assoc]

theorem joined_cons (d : Dag) (ds : List Dag) : joined op (d :: ds) = op d (joined op ds) := by
  rw [joined, List.foldl_cons, h.empty_left, h.foldl]

theorem joined_append (ds es : List Dag) : joined op (ds ++ es) = op (joined op ds) (joined op es) := by
  rw [joined, List.foldl_append, h.foldl]
  rfl

theorem offset_add_lt {ds : List Dag} {i v : Nat} (hi : i < ds.length) (hv : v < (ds[i]).size) :
    offset ds i + v < (joined op ds).size := by
  induction ds generalizing i with
  | nil => exact absurd hi (Nat.not_lt_zero _)
  | cons d ds ih =>
    rw [h.joined_cons, h.size]
    cases i with
    | zero =>
      replace hv : v < d.size := hv
      simp only [offset, List.take_zero, List.map_nil, List.sum_nil]
      omega
    | succ i =>
      have hrest := ih (Nat.lt_of_succ_lt_succ hi) hv
      simp only [offset, List.take_succ_cons, List.map_cons, List.sum_cons] at hrest ⊢
      omega

/-- **Paths of the whole.** A node comes before one of a later graph if the operation leads
across, before one of its own graph if it does so there, and never before one of an
earlier graph. -/
theorem path_joined {ds : List Dag} {i j u v : Nat} (hi : i < ds.length) (hj : j < ds.length)
    (hu : u < (ds[i]).size) (hv : v < (ds[j]).size) :
    (joined op ds).Path (offset ds i + u) (offset ds j + v) ↔ i < j ∧ across ∨ i = j ∧ (ds[i]).Path u v := by
  induction ds generalizing i j with
  | nil => exact absurd hi (Nat.not_lt_zero _)
  | cons d ds ih =>
    have hzero : ∀ u, offset (d :: ds) 0 + u = u := fun u => Nat.zero_add u
    have hsucc : ∀ k u, offset (d :: ds) (k + 1) + u = d.size + (offset ds k + u) := fun k u => by
      simp only [offset, List.take_succ_cons, List.map_cons, List.sum_cons, Nat.add_assoc]
    rw [h.joined_cons]
    cases i with
    | zero =>
      replace hu : u < d.size := hu
      cases j with
      | zero =>
        replace hv : v < d.size := hv
        rw [hzero, hzero, h.left hv]
        simp
      | succ j =>
        have hj := Nat.lt_of_succ_lt_succ hj
        rw [hzero, hsucc, h.between hu (h.offset_add_lt hj hv)]
        simp
    | succ i =>
      have hi := Nat.lt_of_succ_lt_succ hi
      cases j with
      | zero =>
        replace hv : v < d.size := hv
        have hback : ¬ (op d (joined op ds)).Path (d.size + (offset ds i + u)) v := by
          intro hpath
          have hbounds := hpath.bounds
          omega
        rw [hzero, hsucc]
        simp [hback]
      | succ j =>
        rw [hsucc, hsucc, h.right, ih hi (Nat.lt_of_succ_lt_succ hj) hu hv]
        simp
end Joins
end

end Dags
