import Vccl.Topo.Nodes
import Vccl.WorkFifo.Model

/-! `ncclTopoPreset`: what each rank reports about the paths that the search found on its host, and the
nodes that `initTransportsRank` makes of the reports. -/
namespace Vccl.Topo

open List
open WorkFifo (maxChannels)

inductive TreePattern where
  | balancedTree
  | splitTree
  | tree
  deriving DecidableEq

structure Graphs where
  ringChannels : Nat
  treeChannels : Nat
  ringIntra : Nat → List Nat
  treeIntra : Nat → List Nat
  pattern : TreePattern

def Graphs.nChannels (graphs : Graphs) : Nat := min graphs.treeChannels graphs.ringChannels

def ranksOn (nRanks : Nat) (hostOf : Nat → Nat) (host : Nat) : List Nat :=
  (range nRanks).filter fun r => decide (hostOf r = host)

/-- Ranks on hosts. The search orders the ranks of a host in some way for each channel; it leaves a
single rank the plain tree. -/
structure Cluster where
  nRanks : Nat
  hostOf : Nat → Nat
  graphs : Nat → Graphs
  someRank : 0 < nRanks
  someChannel : ∀ r < nRanks, 0 < (graphs (hostOf r)).nChannels
  channelLimit : ∀ r < nRanks, (graphs (hostOf r)).nChannels ≤ maxChannels / 2
  ringPath : ∀ r < nRanks, ∀ c < (graphs (hostOf r)).nChannels,
    ((graphs (hostOf r)).ringIntra c).Perm (ranksOn nRanks hostOf (hostOf r))
  treePath : ∀ r < nRanks, ∀ c < (graphs (hostOf r)).nChannels,
    ((graphs (hostOf r)).treeIntra c).Perm (ranksOn nRanks hostOf (hostOf r))
  plainTree : ∀ r < nRanks, (ranksOn nRanks hostOf (hostOf r)).length = 1 →
    (graphs (hostOf r)).pattern = .tree

/-- The entries of `ncclTopoRanks` for the ring of one channel; no rank is -1 there. -/
structure RingPlace where
  recv : Nat
  send : Nat
  prev : Option Nat
  next : Option Nat
  deriving DecidableEq

structure TreePlace where
  toParent : Nat
  toChild0 : Nat
  toChild1 : Nat
  deriving DecidableEq

structure Tree where
  up : Option Nat
  down : List (Option Nat)
  deriving DecidableEq

def atRank {α : Type*} (intra : List Nat) (rank : Nat) (value : Nat → α) (init : α) : α :=
  (range intra.length).foldl (fun a i => if intra[i]? = some rank then value i else a) init

def ringPlace (intra : List Nat) (i : Nat) : RingPlace where
  recv := intra.getD 0 0
  send := intra.getD (intra.length - 1) 0
  prev := if i = 0 then none else intra[i - 1]?
  next := if i = intra.length - 1 then none else intra[i + 1]?

def child0Index (pattern : TreePattern) : Nat := if pattern = .tree then 0 else 1

def child1Index (pattern : TreePattern) : Nat := if pattern = .splitTree then 1 else 0

def treePlace (pattern : TreePattern) (intra : List Nat) : TreePlace where
  toParent := intra.getD 0 0
  toChild0 := intra.getD (child0Index pattern) 0
  toChild1 := intra.getD (child1Index pattern) 0

def chainTree (intra : List Nat) (i : Nat) : Tree where
  up := if i = 0 then none else intra[i - 1]?
  down := [if i = intra.length - 1 then none else intra[i + 1]?, none, none]

structure Preset where
  ring : Nat → RingPlace
  tree : Nat → TreePlace
  channels : Nat → Tree

/-- The reports start as zeros, the channels without neighbours, and the second half of the channels
is a copy of the first. -/
def topoPreset (cluster : Cluster) (rank : Nat) : Preset :=
  let graphs := cluster.graphs (cluster.hostOf rank)
  let channel c := atRank (graphs.treeIntra c) rank (chainTree (graphs.treeIntra c)) ⟨none, [none, none, none]⟩
  { ring := fun c =>
      if c < graphs.nChannels then
        atRank (graphs.ringIntra c) rank (ringPlace (graphs.ringIntra c)) ⟨0, 0, some 0, some 0⟩
      else ⟨0, 0, some 0, some 0⟩
    tree := fun c =>
      if c < graphs.nChannels then
        atRank (graphs.treeIntra c) rank (fun _ => treePlace graphs.pattern (graphs.treeIntra c)) ⟨0, 0, 0⟩
      else ⟨0, 0, 0⟩
    channels := fun c =>
      if c < graphs.nChannels then channel c
      else if c < 2 * graphs.nChannels then channel (c - graphs.nChannels)
      else ⟨some 0, [some 0, some 0, some 0]⟩ }

theorem atRank_eq {α : Type*} {intra : List Nat} {rank i : Nat} (value : Nat → α) (init : α)
    (distinct : intra.Nodup) (here : intra[i]? = some rank) : atRank intra rank value init = value i := by
  have only : ∀ j, intra[j]? = some rank ↔ j = i := by
    intro j
    constructor
    · intro ht
      obtain ⟨_, at_first⟩ := List.getElem?_eq_some_iff.mp ht
      obtain ⟨_, at_second⟩ := List.getElem?_eq_some_iff.mp here
      exact distinct.getElem_inj_iff.mp (at_first.trans at_second.symm)
    · rintro rfl
      exact here
  have prefixes : ∀ n, (List.range n).foldl (fun a j => if intra[j]? = some rank then value j else a) init =
      if i < n then value i else init := by
    intro n
    induction n with
    | zero => rfl
    | succ n ih =>
      rw [range_succ, foldl_append, ih]
      simp only [foldl_cons, foldl_nil, only]
      rcases Nat.lt_trichotomy n i with _ | rfl | _
      · rw [if_neg (by omega), if_neg (by omega), if_neg (by omega)]
      · rw [if_pos rfl, if_pos (by omega)]
      · rw [if_neg (by omega), if_pos (by omega), if_pos (by omega)]
  exact (prefixes intra.length).trans (if_pos (List.getElem?_eq_some_iff.mp here).1)

namespace Cluster

variable (cluster : Cluster)

def IsPath (rank : Nat) (intra : List Nat) : Prop :=
  intra.Perm (ranksOn cluster.nRanks cluster.hostOf (cluster.hostOf rank))

variable {cluster} {rank : Nat} {intra : List Nat}

theorem IsPath.nodup (path : cluster.IsPath rank intra) : intra.Nodup :=
  path.nodup_iff.mpr (nodup_range.filter _)

theorem IsPath.mem_iff (path : cluster.IsPath rank intra) (r : Nat) :
    r ∈ intra ↔ r < cluster.nRanks ∧ cluster.hostOf r = cluster.hostOf rank := by
  rw [Perm.mem_iff path]
  simp [ranksOn]

theorem IsPath.place (path : cluster.IsPath rank intra) (inside : rank < cluster.nRanks) :
    ∃ i : Nat, intra[i]? = some rank :=
  mem_iff_getElem?.mp ((path.mem_iff rank).mpr ⟨inside, rfl⟩)

theorem IsPath.ne_nil (path : cluster.IsPath rank intra) (inside : rank < cluster.nRanks) : intra ≠ [] :=
  ne_nil_of_mem ((path.mem_iff rank).mpr ⟨inside, rfl⟩)

variable (cluster)

def firstRanks : List Nat := (range cluster.nRanks).map fun r => ((topoPreset cluster r).ring 0).recv

def layout : Layout := layoutOf cluster.firstRanks

def firstRank (node : Nat) : Nat := (findNodes cluster.firstRanks).firstRank.getD node 0

@[simp] theorem layout_nRanks : cluster.layout.nRanks = cluster.nRanks := by
  simp [layout, layoutOf, firstRanks]

variable {cluster}

section

variable (inside : rank < cluster.nRanks)
include inside

variable {c : Nat}

theorem ring_eq (channel : c < (cluster.graphs (cluster.hostOf rank)).nChannels) :
    ∃ i : Nat, ((cluster.graphs (cluster.hostOf rank)).ringIntra c)[i]? = some rank ∧
      (topoPreset cluster rank).ring c = ringPlace ((cluster.graphs (cluster.hostOf rank)).ringIntra c) i := by
  have path : cluster.IsPath rank _ := cluster.ringPath rank inside c channel
  obtain ⟨i, here⟩ := path.place inside
  refine ⟨i, here, ?_⟩
  simp only [topoPreset, if_pos channel]
  exact atRank_eq _ _ path.nodup here

theorem recv_path (channel : c < (cluster.graphs (cluster.hostOf rank)).nChannels) :
    ((topoPreset cluster rank).ring c).recv < cluster.nRanks ∧
      cluster.hostOf ((topoPreset cluster rank).ring c).recv = cluster.hostOf rank := by
  have path : cluster.IsPath rank _ := cluster.ringPath rank inside c channel
  obtain ⟨i, _, place⟩ := ring_eq inside channel
  have pos := length_pos_iff.mpr (path.ne_nil inside)
  rw [place, ← path.mem_iff]
  simp only [ringPlace]
  rw [getD_eq_getElem _ _ pos]
  exact getElem_mem pos

theorem firstRanks_getElem :
    cluster.firstRanks[rank]? = some ((topoPreset cluster rank).ring 0).recv := by
  simp [firstRanks, inside]

theorem recv_eq_of_host {rank' : Nat} (inside' : rank' < cluster.nRanks)
    (channel : c < (cluster.graphs (cluster.hostOf rank)).nChannels)
    (same : cluster.hostOf rank' = cluster.hostOf rank) :
    ((topoPreset cluster rank').ring c).recv = ((topoPreset cluster rank).ring c).recv ∧
      ((topoPreset cluster rank').ring c).send = ((topoPreset cluster rank).ring c).send := by
  obtain ⟨i, -, place⟩ := ring_eq inside channel
  obtain ⟨j, -, place'⟩ := ring_eq inside' (same ▸ channel)
  rw [place, place', same]
  exact ⟨rfl, rfl⟩

theorem firstRank_rankToNode :
    (findNodes cluster.firstRanks).firstRank[cluster.layout.rankToNode rank]? =
      some ((topoPreset cluster rank).ring 0).recv :=
  (findNodes_finds _).located rank _ (firstRanks_getElem inside)

theorem rankToNode_eq_iff {rank' : Nat} (inside' : rank' < cluster.nRanks) :
    cluster.layout.rankToNode rank = cluster.layout.rankToNode rank' ↔
      cluster.hostOf rank = cluster.hostOf rank' := by
  have first := firstRank_rankToNode inside
  have first' := firstRank_rankToNode inside'
  constructor
  · intro same
    rw [same] at first
    have recv := Option.some.inj (first.symm.trans first')
    rw [← (recv_path inside (cluster.someChannel rank inside)).2, recv,
      (recv_path inside' (cluster.someChannel rank' inside')).2]
  · intro same
    rw [(recv_eq_of_host inside' inside (cluster.someChannel rank' inside') same).1] at first
    obtain ⟨_, at_first⟩ := List.getElem?_eq_some_iff.mp first
    obtain ⟨_, at_first'⟩ := List.getElem?_eq_some_iff.mp first'
    exact (findNodes_finds cluster.firstRanks).distinct.getElem_inj_iff.mp (at_first.trans at_first'.symm)

end

theorem rankToNode_firstRank {node : Nat} (inside : node < cluster.layout.nNodes) :
    cluster.firstRank node < cluster.nRanks ∧ cluster.layout.rankToNode (cluster.firstRank node) = node := by
  have finds := findNodes_finds cluster.firstRanks
  have here : cluster.firstRank node = (findNodes cluster.firstRanks).firstRank[node] :=
    getD_eq_getElem _ _ inside
  have mem := finds.reported _ (getElem_mem inside)
  rw [← here] at mem
  obtain ⟨rank, hk, recv⟩ := mem_map.mp mem
  have rankInside := mem_range.mp hk
  have channel := cluster.someChannel rank rankInside
  obtain ⟨hb, host⟩ := recv_path rankInside channel
  rw [recv] at hb host
  refine ⟨hb, ?_⟩
  -- the first rank reports itself
  have own := firstRank_rankToNode hb
  rw [(recv_eq_of_host rankInside hb channel host).1, recv] at own
  obtain ⟨_, at_node⟩ := List.getElem?_eq_some_iff.mp own
  exact finds.distinct.getElem_inj_iff.mp (at_node.trans here)

theorem firstRank_lt (node : Nat) : cluster.firstRank node < cluster.nRanks := by
  rcases Nat.lt_or_ge node cluster.layout.nNodes with inside | ho
  · exact (rankToNode_firstRank inside).1
  · rw [firstRank, getD_eq_default _ _ ho]
    exact cluster.someRank

variable (cluster)

/-- The least value of all graphs, as a rank finds it that starts from its own graph. -/
def aligned (value : Graphs → Nat) (rank : Nat) : Nat :=
  (range cluster.nRanks).foldl (fun least i => min (value (cluster.graphs (cluster.hostOf i))) least)
    (value (cluster.graphs (cluster.hostOf rank)))

def alignedChannels (rank : Nat) : Nat :=
  min (cluster.aligned Graphs.treeChannels rank) (cluster.aligned Graphs.ringChannels rank)

variable {cluster}

theorem foldl_min (value : Nat → Nat) (l : List Nat) (init : Nat) :
    (l.foldl (fun least i => min (value i) least) init ≤ init) ∧
      (∀ i ∈ l, l.foldl (fun least i => min (value i) least) init ≤ value i) ∧
      (l.foldl (fun least i => min (value i) least) init = init ∨
        ∃ i ∈ l, l.foldl (fun least i => min (value i) least) init = value i) := by
  induction l generalizing init with
  | nil => simp
  | cons first rest ih =>
    obtain ⟨start, each, attained⟩ := ih (min (value first) init)
    refine ⟨le_trans start (min_le_right _ _), ?_, ?_⟩
    · exact forall_mem_cons.mpr ⟨le_trans start (min_le_left _ _), each⟩
    · rcases attained with same | ⟨i, mem, same⟩
      · rcases min_choice (value first) init with left | right
        · exact .inr ⟨first, mem_cons_self, same.trans left⟩
        · exact .inl (same.trans right)
      · exact .inr ⟨i, mem_cons_of_mem _ mem, same⟩

theorem aligned_least (value : Graphs → Nat) (inside : rank < cluster.nRanks) :
    (∀ r < cluster.nRanks, cluster.aligned value rank ≤ value (cluster.graphs (cluster.hostOf r))) ∧
      ∃ r < cluster.nRanks, cluster.aligned value rank = value (cluster.graphs (cluster.hostOf r)) := by
  obtain ⟨-, each, attained⟩ := foldl_min (fun i => value (cluster.graphs (cluster.hostOf i)))
    (range cluster.nRanks) (value (cluster.graphs (cluster.hostOf rank)))
  constructor
  · intro r hb
    exact each r (mem_range.mpr hb)
  · rcases attained with same | ⟨r, mem, same⟩
    · exact ⟨rank, inside, same⟩
    · exact ⟨r, mem_range.mp mem, same⟩

theorem alignedChannels_eq {rank' : Nat} (inside : rank < cluster.nRanks) (inside' : rank' < cluster.nRanks) :
    cluster.alignedChannels rank = cluster.alignedChannels rank' := by
  have agree : ∀ value, cluster.aligned value rank = cluster.aligned value rank' := by
    intro value
    obtain ⟨hl, r, hb, here⟩ := aligned_least value inside
    obtain ⟨hl', r', hb', here'⟩ := aligned_least value inside'
    exact le_antisymm (here' ▸ hl r' hb') (here ▸ hl' r hb)
  simp [alignedChannels, agree]

theorem alignedChannels_le {r : Nat} (inside : rank < cluster.nRanks) (bound : r < cluster.nRanks) :
    cluster.alignedChannels rank ≤ (cluster.graphs (cluster.hostOf r)).nChannels :=
  min_le_min ((aligned_least _ inside).1 r bound) ((aligned_least _ inside).1 r bound)

theorem alignedChannels_pos (inside : rank < cluster.nRanks) : 0 < cluster.alignedChannels rank := by
  obtain ⟨-, r, hb, _⟩ := aligned_least Graphs.treeChannels inside
  obtain ⟨-, r', hb', _⟩ := aligned_least Graphs.ringChannels inside
  have first := cluster.someChannel r hb
  have second := cluster.someChannel r' hb'
  rw [alignedChannels]
  simp only [Graphs.nChannels] at first second
  omega

end Cluster

end Vccl.Topo
