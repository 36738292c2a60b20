import Vccl.Lib.Triangular
import Vccl.Lib.Walk
import Vccl.Topo.Preset

/-! The rings of `ncclTopoPostset`: the paths of the nodes are joined, the channels duplicated, and
`ncclBuildRings` follows the pointers of each channel around. -/
namespace Vccl.Topo

open List Function
open WorkFifo (maxChannels)

structure Row where
  prev : Nat → Option Nat
  next : Nat → Option Nat

def exchangeValues {α : Type*} (values : Nat → α) (i j : Nat) : Nat → α :=
  update (update values j (values i)) i (values j)

def exchangeRings {α : Type*} (nChannels : Nat) (ring : Nat → α) : Nat → α :=
  (range ((nChannels + 1) / 2)).foldl (fun ring k => exchangeValues ring (2 * k) ((2 * k) ^^^ 1)) ring

def connectRings (nNodes : Nat) (recv send : Nat → Nat) (row : Row) : Row :=
  (range nNodes).foldl (fun row n =>
    { prev := update row.prev (recv n) (some (send ((n + nNodes - 1) % nNodes)))
      next := update row.next (send n) (some (recv ((n + 1) % nNodes))) }) row

structure Rings where
  nChannels : Nat
  rows : Nat → Row

/-- `copyChannels` from the present number of channels on. -/
def Rings.copyChannels (rings : Rings) (stop : Nat) : Rings where
  nChannels := max rings.nChannels stop
  rows := (range' rings.nChannels (stop - rings.nChannels)).foldl
    (fun rows c => update rows c (rows (c - rings.nChannels))) rings.rows

def Rings.limit (rings : Rings) (most : Nat) : Rings := { rings with nChannels := min most rings.nChannels }

def Rings.duplicate (rings : Rings) : Rings where
  nChannels := min maxChannels (rings.nChannels * 2)
  rows := fun c =>
    if rings.nChannels ≤ c ∧ c < rings.nChannels * 2 then rings.rows (c - rings.nChannels) else rings.rows c

/-- `ncclMinNchannels` for the values of `NCCL_MIN_NRINGS` and `NCCL_MIN_NCHANNELS`, -2 if unset. -/
def minNchannels (nRings nChannels : Int) : Nat :=
  let asked := if nChannels ≠ -2 then nChannels else if nRings ≠ -2 then nRings else 0
  (min asked maxChannels).toNat

/-- `ncclMaxNchannels`; the kernel arguments have room for `argsChannels`. -/
def maxNchannels (nRings nChannels argsChannels : Int) : Nat :=
  let asked := if nChannels ≠ -2 then nChannels else if nRings ≠ -2 then nRings else maxChannels
  (max 1 (min (min asked argsChannels) maxChannels)).toNat

/-- What decides about exchanging channels and about their number. `topParent` is the limit of the
communicator whose resources this one uses, `sharedParent` the NVLS channels and the limit of a parent
with shared NVLS resources. -/
structure Settings where
  crossNic : Nat
  collNetSupport : Bool
  chainSaturated : Bool
  minCompCap : Nat
  fastRing : Bool
  unpackDouble : Bool
  minNrings : Int
  minNchannels : Int
  maxNrings : Int
  maxNchannels : Int
  argsChannels : Int
  minCTAs : Nat
  maxCTAs : Nat
  nvlsChannels : Nat
  topParent : Option Nat
  sharedParent : Option (Nat × Nat)
  ctas : minCTAs ≤ maxChannels ∧ 0 < maxCTAs
  nvls : nvlsChannels ≤ maxChannels
  topLimit : ∀ tp ∈ topParent, 0 < tp
  sharedLimit : ∀ parent ∈ sharedParent, 0 < parent.2

/-- The stages between connecting the channels and building the rings. -/
def addChannels (settings : Settings) (nRanks nNodes : Nat) (rings : Rings) : Rings :=
  let rings :=
    if settings.collNetSupport && settings.chainSaturated && decide (nNodes < nRanks) then
      rings.copyChannels (min maxChannels (rings.nChannels + rings.nChannels / 2))
    else rings
  let rings :=
    if decide (90 ≤ settings.minCompCap) && decide (1 < nNodes) && settings.fastRing &&
        decide (rings.nChannels < 16) then
      rings.copyChannels (2 * rings.nChannels)
    else rings
  let rings :=
    if settings.unpackDouble && decide (1 < nNodes) && decide (rings.nChannels < 16) then
      rings.copyChannels (2 * rings.nChannels)
    else rings
  let most := maxNchannels settings.maxNrings settings.maxNchannels settings.argsChannels
  let least := max (minNchannels settings.minNrings settings.minNchannels) settings.minCTAs
  let rings :=
    match settings.topParent with
    | some tp => (rings.limit (min (min most settings.maxCTAs) tp)).copyChannels (min least tp)
    | none => (rings.limit (min most settings.maxCTAs)).copyChannels least
  let nvlsChannels :=
    match settings.sharedParent with
    | some (parentChannels, _) => min settings.nvlsChannels parentChannels
    | none => settings.nvlsChannels
  let rings := if rings.nChannels < nvlsChannels then rings.copyChannels nvlsChannels else rings
  match settings.sharedParent with
  | some (_, tp) => rings.limit tp
  | none => rings

namespace Cluster

variable (cluster : Cluster) (settings : Settings)

def exchanged (nChannels node : Nat) : Bool :=
  settings.crossNic == 2 && nChannels % 2 == 0 && node % 2 == 1

/-- `allTopoRanks[r]` after the rings of odd nodes are exchanged. -/
def allRings (nChannels r : Nat) : Nat → RingPlace :=
  if exchanged settings nChannels (cluster.layout.rankToNode r) then
    exchangeRings nChannels (topoPreset cluster r).ring
  else (topoPreset cluster r).ring

def gatherRow (nChannels c : Nat) : Row where
  prev r := (cluster.allRings settings nChannels r c).prev
  next r := (cluster.allRings settings nChannels r c).next

def connectedRow (nChannels c : Nat) : Row :=
  connectRings cluster.layout.nNodes
    (fun n => (cluster.allRings settings nChannels (cluster.firstRank n) c).recv)
    (fun n => (cluster.allRings settings nChannels (cluster.firstRank n) c).send)
    (cluster.gatherRow settings nChannels c)

/-- The ring pointers that `ncclTopoPostset` has on a rank before it builds the rings. -/
def topoPostset (rank : Nat) : Rings :=
  let nChannels := cluster.alignedChannels rank
  addChannels settings cluster.nRanks cluster.layout.nNodes
    (Rings.duplicate ⟨nChannels, cluster.connectedRow settings nChannels⟩)

end Cluster

/-- What `ncclBuildRings` warns about; the first one is a read outside of the array. -/
inductive RingError where
  | noRank (ring : Nat)
  | doesNotLoop (ring : Nat) (current : Option Nat) (rank : Nat)
  | missing (ring rank : Nat)
  deriving DecidableEq

def buildRing (nRanks rank : Nat) (row : Row) (r : Nat) : Except RingError (List Nat) :=
  match Walk.follow row.next nRanks (some rank) with
  | none => .error (.noRank r)
  | some (ring, current) =>
    if current ≠ some rank then .error (.doesNotLoop r current rank)
    else
      match (range nRanks).find? fun i => !ring.contains i with
      | some i => .error (.missing r i)
      | none => .ok ring

def buildRings (nRings nRanks rank : Nat) (rows : Nat → Row) : Except RingError (List (List Nat)) :=
  (range nRings).mapM fun r => buildRing nRanks rank (rows r) r

theorem connectRings_congr {nNodes : Nat} {recv recv' send send' : Nat → Nat} {row : Row}
    (recvs : ∀ n < nNodes, recv n = recv' n) (sends : ∀ n < nNodes, send n = send' n) :
    connectRings nNodes recv send row = connectRings nNodes recv' send' row := by
  refine foldl_ext _ _ _ ?_
  intro row n mem
  have inside := mem_range.mp mem
  have positive : 0 < nNodes := by omega
  rw [recvs n inside, sends n inside, recvs _ (Nat.mod_lt _ positive), sends _ (Nat.mod_lt _ positive)]

structure Row.IsRing (row : Row) (nRanks : Nat) (ring : Cycle Nat) : Prop where
  nodup : ring.Nodup
  mem_iff : ∀ r, r ∈ ring ↔ r < nRanks
  chain : ring.Chain fun a b => row.next a = some b ∧ row.prev b = some a

structure Paths (nNodes nRanks : Nat) (node : Nat → Nat) (path : Nat → List Nat) : Prop where
  someNode : 0 < nNodes
  onNode : ∀ r < nRanks, node r < nNodes
  nonempty : ∀ n < nNodes, path n ≠ []
  distinct : ∀ n < nNodes, (path n).Nodup
  mem_iff : ∀ n < nNodes, ∀ r, r ∈ path n ↔ r < nRanks ∧ node r = n

theorem foldl_update {α β : Type*} [DecidableEq α] (place : Nat → α) (value : Nat → β) (f : α → β) (n : Nat) :
    (∀ a, (∀ i < n, place i ≠ a) →
      (range n).foldl (fun f i => update f (place i) (value i)) f a = f a) ∧
    ∀ i < n, (∀ j < n, place j = place i → j = i) →
      (range n).foldl (fun f i => update f (place i) (value i)) f (place i) = value i := by
  induction n with
  | zero => simp
  | succ n ih =>
    simp only [range_succ, foldl_append, foldl_cons, foldl_nil]
    constructor
    · intro a he
      rw [update_of_ne (he n (by omega)).symm]
      exact ih.1 a fun i less => he i (by omega)
    intro i less hi
    by_cases last : place n = place i
    · obtain rfl := hi n (by omega) last
      exact update_self _ _ _
    · have earlier : i ≠ n := fun same => last (congrArg place same.symm)
      rw [update_of_ne (Ne.symm last)]
      exact ih.2 i (by omega) fun j less' => hi j (by omega)

namespace Paths

variable {nNodes nRanks : Nat} {node : Nat → Nat} {path : Nat → List Nat}

def first (path : Nat → List Nat) (n : Nat) : Nat := (path n).getD 0 0

def last (path : Nat → List Nat) (n : Nat) : Nat := (path n).getD ((path n).length - 1) 0

def connected (nNodes : Nat) (path : Nat → List Nat) (row : Row) : Row :=
  connectRings nNodes (first path) (last path) row

theorem connected_prev (row : Row) : (connected nNodes path row).prev = (range nNodes).foldl
    (fun f n => update f (first path n) (some (last path ((n + nNodes - 1) % nNodes)))) row.prev :=
  (foldl_hom Row.prev fun _ _ => rfl).symm

theorem connected_next (row : Row) : (connected nNodes path row).next = (range nNodes).foldl
    (fun f n => update f (last path n) (some (first path ((n + 1) % nNodes)))) row.next :=
  (foldl_hom Row.next fun _ _ => rfl).symm

variable (paths : Paths nNodes nRanks node path)

include paths

theorem getD_mem {n i : Nat} (inside : n < nNodes) (place : i < (path n).length) :
    (path n)[i]? = some ((path n).getD i 0) ∧ node ((path n).getD i 0) = n := by
  rw [getD_eq_getElem _ _ place]
  exact ⟨getElem?_eq_getElem place, ((paths.mem_iff n inside _).mp (getElem_mem place)).2⟩

theorem place_unique {n m i j r : Nat} (inside : n < nNodes) (inside' : m < nNodes)
    (here : (path n)[i]? = some r) (there : (path m)[j]? = some r) : n = m ∧ i = j := by
  obtain rfl : n = m := by
    have first := ((paths.mem_iff n inside r).mp (mem_of_getElem? here)).2
    have second := ((paths.mem_iff m inside' r).mp (mem_of_getElem? there)).2
    exact first.symm.trans second
  obtain ⟨_, at_first⟩ := List.getElem?_eq_some_iff.mp here
  obtain ⟨_, at_second⟩ := List.getElem?_eq_some_iff.mp there
  exact ⟨rfl, (paths.distinct n inside).getElem_inj_iff.mp (at_first.trans at_second.symm)⟩

variable {n : Nat}

theorem length_pos (inside : n < nNodes) : 0 < (path n).length :=
  length_pos_iff.mpr (paths.nonempty n inside)

theorem first_mem (inside : n < nNodes) : (path n)[0]? = some (first path n) ∧ node (first path n) = n :=
  paths.getD_mem inside (paths.length_pos inside)

theorem last_mem (inside : n < nNodes) :
    (path n)[(path n).length - 1]? = some (last path n) ∧ node (last path n) = n :=
  paths.getD_mem inside (Nat.sub_lt (paths.length_pos inside) Nat.one_pos)

variable (row : Row)

theorem inner {n i a b : Nat} (inside : n < nNodes) (first : (path n)[i]? = some a)
    (second : (path n)[i + 1]? = some b) :
    (connected nNodes path row).next a = row.next a ∧ (connected nNodes path row).prev b = row.prev b := by
  have bound := (List.getElem?_eq_some_iff.mp second).1
  rw [connected_prev, connected_next]
  constructor
  · refine (foldl_update _ _ _ _).1 a ?_
    intro m hi' same
    have place := (paths.last_mem hi').1
    rw [same] at place
    obtain ⟨rfl, index⟩ := paths.place_unique inside hi' first place
    omega
  · refine (foldl_update _ _ _ _).1 b ?_
    intro m hi' same
    have place := (paths.first_mem hi').1
    rw [same] at place
    obtain ⟨rfl, index⟩ := paths.place_unique inside hi' second place
    omega

theorem outer (inside : n < nNodes) :
    (connected nNodes path row).next (last path n) = some (first path ((n + 1) % nNodes)) ∧
      (connected nNodes path row).prev (first path ((n + 1) % nNodes)) = some (last path n) := by
  have following : (n + 1) % nNodes < nNodes := Nat.mod_lt _ paths.someNode
  have back : ((n + 1) % nNodes + nNodes - 1) % nNodes = n := by
    rcases Nat.lt_or_ge (n + 1) nNodes with less | last
    · rw [Nat.mod_eq_of_lt less, show n + 1 + nNodes - 1 = n + nNodes by omega, Nat.add_mod_right,
        Nat.mod_eq_of_lt inside]
    · obtain rfl : nNodes = n + 1 := by omega
      simp
  rw [connected_prev, connected_next]
  constructor
  · refine (foldl_update _ _ _ _).2 n inside ?_
    intro m hi' same
    rw [← (paths.last_mem hi').2, same, (paths.last_mem inside).2]
  · have joined := (foldl_update (first path) (fun n => some (last path ((n + nNodes - 1) % nNodes))) row.prev nNodes).2
      _ following ?_
    · rw [joined, back]
    · intro m hi' same
      rw [← (paths.first_mem hi').2, same, (paths.first_mem following).2]

variable {row}

theorem isRing (places : ∀ n < nNodes, ∀ i r : Nat, (path n)[i]? = some r →
      row.prev r = (ringPlace (path n) i).prev ∧ row.next r = (ringPlace (path n) i).next) :
    (connected nNodes path row).IsRing nRanks (((range nNodes).map path).flatten : List Nat) := by
  have known : ∀ {p : List Nat}, p ∈ (range nNodes).map path ↔ ∃ n < nNodes, path n = p := by
    simp
  refine ⟨?_, ?_, ?_⟩
  · rw [Cycle.nodup_coe_iff, nodup_flatten, pairwise_map]
    constructor
    · intro p mem
      obtain ⟨n, inside, rfl⟩ := known.mp mem
      exact paths.distinct n inside
    · refine Pairwise.imp_of_mem ?_ pairwise_lt_range
      intro n m mem mem' less r here ht
      have first := (paths.mem_iff n (mem_range.mp mem) r).mp here
      have second := (paths.mem_iff m (mem_range.mp mem') r).mp ht
      omega
  · intro r
    rw [Cycle.mem_coe_iff, mem_flatten]
    constructor
    · rintro ⟨p, mem, here⟩
      obtain ⟨n, inside, rfl⟩ := known.mp mem
      exact ((paths.mem_iff n inside r).mp here).1
    · intro hb
      have inside := paths.onNode r hb
      exact ⟨path (node r), known.mpr ⟨node r, inside, rfl⟩, (paths.mem_iff _ inside r).mpr ⟨hb, rfl⟩⟩
  · refine Walk.chain_flatten ?_ ?_ ?_
    · intro he
      obtain ⟨n, inside, none⟩ := known.mp he
      exact paths.nonempty n inside none
    · intro p mem
      obtain ⟨n, inside, rfl⟩ := known.mp mem
      rw [isChain_iff_getElem]
      intro i hb
      have first := getElem?_eq_getElem (l := path n) (i := i) (by omega)
      have second := getElem?_eq_getElem hb
      obtain ⟨next, prev⟩ := paths.inner row inside first second
      rw [next, prev, (places n inside i _ first).2, (places n inside (i + 1) _ second).1]
      simp only [ringPlace]
      rw [if_neg (by omega)]
      exact ⟨second, first⟩
    · have link : ∀ n < nNodes, ∀ x ∈ (path n).getLast?, ∀ y ∈ (path ((n + 1) % nNodes)).head?,
          (connected nNodes path row).next x = some y ∧ (connected nNodes path row).prev y = some x := by
        intro n inside x last y first
        have joined := paths.outer row inside
        rw [getLast?_eq_getElem?] at last
        rw [head?_eq_getElem?] at first
        rwa [Paths.last, Paths.first, getD_eq_getElem?_getD, getD_eq_getElem?_getD, Option.mem_def.mp last,
          Option.mem_def.mp first] at joined
      obtain ⟨k, rfl⟩ : ∃ k, nNodes = k + 1 := ⟨nNodes - 1, by have := paths.someNode; omega⟩
      rw [← Cycle.map_coe, Cycle.chain_map, Cycle.chain_range_succ]
      constructor
      · have last := link k (by omega)
        rwa [Nat.mod_self] at last
      · intro m less
        have step := link m (by omega)
        rwa [Nat.mod_eq_of_lt (by omega : m + 1 < k + 1)] at step

end Paths

variable {row : Row} {nRanks rank : Nat} {ring : Cycle Nat}

theorem Row.IsRing.length (isRing : row.IsRing nRanks ring) : ring.length = nRanks := by
  obtain ⟨l, rfl⟩ : ∃ l : List Nat, (l : Cycle Nat) = ring := Quot.exists_rep ring
  have perm := Triangular.perm_range_of_mem (Cycle.nodup_coe_iff.mp isRing.nodup)
    fun r => Cycle.mem_coe_iff.symm.trans (isRing.mem_iff r)
  rw [Cycle.length_coe, perm.length_eq, length_range]

theorem Row.IsRing.buildRing (isRing : row.IsRing nRanks ring) (inside : rank < nRanks) (r : Nat) :
    ∃ built : List Nat, buildRing nRanks rank row r = .ok built ∧ (built : Cycle Nat) = ring ∧
      built.head? = some rank := by
  have chain : ring.Chain fun a b => row.next a = some b := isRing.chain.imp fun _ _ both => both.1
  obtain ⟨built, hf, same, head⟩ := Walk.follow_cycle chain ((isRing.mem_iff rank).mpr inside)
  refine ⟨built, ?_, same, head⟩
  have complete : (range nRanks).find? (fun i => !built.contains i) = none := by
    rw [find?_eq_none]
    intro i hb
    have mem := (isRing.mem_iff i).mpr (mem_range.mp hb)
    rw [← same] at mem
    simpa using mem
  rw [isRing.length] at hf
  simp only [Topo.buildRing, hf, complete, ne_eq, not_true_eq_false, if_false]

theorem mapM_ok {α β ε : Type} {f : α → Except ε β} {g : α → β} {l : List α}
    (all : ∀ a ∈ l, f a = .ok (g a)) : l.mapM f = .ok (l.map g) := by
  induction l with
  | nil => rfl
  | cons a rest ih =>
    rw [mapM_cons, all a mem_cons_self, ih fun b mem => all b (mem_cons_of_mem _ mem)]
    rfl

namespace Rings

variable {rings : Rings} {P : Row → Prop}

structure All (rings : Rings) (P : Row → Prop) : Prop where
  pos : 0 < rings.nChannels
  le : rings.nChannels ≤ maxChannels
  rows : ∀ c < rings.nChannels, P (rings.rows c)

theorem All.limit (all : rings.All P) {most : Nat} (positive : 0 < most) : (rings.limit most).All P :=
  ⟨lt_min positive all.pos, le_trans (min_le_right _ _) all.le,
    fun c less => all.rows c (lt_of_lt_of_le less (min_le_right _ _))⟩

theorem All.copyChannels (all : rings.All P) {stop : Nat} (inside : stop ≤ maxChannels) :
    (rings.copyChannels stop).All P := by
  have copied : ∀ n, ∀ c < rings.nChannels + n, P ((range' rings.nChannels n).foldl
      (fun rows c => update rows c (rows (c - rings.nChannels))) rings.rows c) := by
    intro n
    induction n with
    | zero => exact all.rows
    | succ n ih =>
      intro c less
      rw [range'_1_concat, foldl_append]
      simp only [foldl_cons, foldl_nil, update_apply]
      have positive := all.pos
      split
      · exact ih _ (by omega)
      · exact ih c (by omega)
  refine ⟨lt_of_lt_of_le all.pos (le_max_left _ _), max_le all.le inside, ?_⟩
  intro c less
  refine copied _ c ?_
  simp only [Rings.copyChannels] at less
  omega

theorem All.copyIf (all : rings.All P) {stop : Nat} (cond : Prop) [Decidable cond]
    (inside : cond → stop ≤ maxChannels) : (if cond then rings.copyChannels stop else rings).All P := by
  split
  next hc => exact all.copyChannels (inside hc)
  · exact all

theorem All.duplicate (all : rings.All P) : rings.duplicate.All P := by
  have positive := all.pos
  have bound : 0 < maxChannels := by decide
  refine ⟨?_, min_le_left _ _, ?_⟩
  · simp only [Rings.duplicate]
    omega
  · intro c less
    simp only [Rings.duplicate] at less ⊢
    split
    · exact all.rows _ (by omega)
    · exact all.rows c (by omega)

end Rings

theorem minNchannels_le (nRings nChannels : Int) : minNchannels nRings nChannels ≤ maxChannels := by
  simp only [minNchannels]
  omega

theorem maxNchannels_pos (nRings nChannels argsChannels : Int) :
    0 < maxNchannels nRings nChannels argsChannels := by
  simp only [maxNchannels]
  omega

theorem addChannels_all (settings : Settings) (nRanks nNodes : Nat) {rings : Rings} {P : Row → Prop}
    (all : rings.All P) : (addChannels settings nRanks nNodes rings).All P := by
  have most := maxNchannels_pos settings.maxNrings settings.maxNchannels settings.argsChannels
  have least := minNchannels_le settings.minNrings settings.minNchannels
  have ctas := settings.ctas
  have nvls := settings.nvls
  have room : 32 ≤ maxChannels := by decide
  unfold addChannels
  extract_lets chained doubled unpacked mostChannels leastChannels honored nvlsChannels used
  have chainedAll : chained.All P := all.copyIf _ fun _ => min_le_left _ _
  have doubledAll : doubled.All P := chainedAll.copyIf _ fun few => by
    simp only [Bool.and_eq_true, decide_eq_true_eq] at few
    omega
  have unpackedAll : unpacked.All P := doubledAll.copyIf _ fun few => by
    simp only [Bool.and_eq_true, decide_eq_true_eq] at few
    omega
  have honoredAll : honored.All P := by
    unfold honored
    split
    next tp parent =>
      have limit := settings.topLimit tp parent
      exact (unpackedAll.limit (by omega)).copyChannels (by omega)
    · exact (unpackedAll.limit (by omega)).copyChannels (by omega)
  have nvlsBound : nvlsChannels ≤ maxChannels := by
    unfold nvlsChannels
    split <;> omega
  have usedAll : used.All P := honoredAll.copyIf _ fun _ => nvlsBound
  split
  next nvls tp parent =>
    exact usedAll.limit (settings.sharedLimit _ parent)
  · exact usedAll

theorem exchangeRings_apply {α : Type*} (ring : Nat → α) {nChannels c : Nat} (even : nChannels % 2 = 0)
    (channel : c < nChannels) : exchangeRings nChannels ring c = ring (c ^^^ 1) := by
  have exchanged : ∀ n, (range n).foldl
      (fun ring k => exchangeValues ring (2 * k) ((2 * k) ^^^ 1)) ring =
        fun c => if c < 2 * n then ring (c ^^^ 1) else ring c := by
    intro n
    induction n with
    | zero => rfl
    | succ n ih =>
      have first : (2 * n) ^^^ 1 = 2 * n + 1 := Nat.xor_one_of_even (even_two_mul n)
      have second : (2 * n + 1) ^^^ 1 = 2 * n := Nat.xor_one_of_odd (odd_two_mul_add_one n)
      rw [range_succ, foldl_append, ih]
      funext c
      simp only [foldl_cons, foldl_nil, exchangeValues, first, update_apply]
      rcases Nat.lt_trichotomy c (2 * n) with hb | rfl | _
      · rw [if_neg (by omega), if_neg (by omega), if_pos hb, if_pos (by omega)]
      · rw [if_pos rfl, if_neg (by omega), if_pos (by omega), first]
      · rw [if_neg (by omega)]
        by_cases hn : c = 2 * n + 1
        · rw [if_pos hn, if_neg (by omega), if_pos (by omega), hn, second]
        · rw [if_neg hn, if_neg (by omega), if_neg (by omega)]
  rw [exchangeRings, exchanged]
  exact if_pos (by omega)

namespace Cluster

theorem paths_of_isPath {cluster : Cluster} {path : Nat → List Nat}
    (isPath : ∀ n < cluster.layout.nNodes, cluster.IsPath (cluster.firstRank n) (path n)) :
    Paths cluster.layout.nNodes cluster.nRanks cluster.layout.rankToNode path where
  someNode := Nat.zero_lt_of_lt (cluster.layout.onNode 0 (by simpa using cluster.someRank))
  onNode r bound := cluster.layout.onNode r (by simpa using bound)
  nonempty n inside := (isPath n inside).ne_nil (rankToNode_firstRank inside).1
  distinct n inside := (isPath n inside).nodup
  mem_iff n inside r := by
    obtain ⟨bound, node⟩ := rankToNode_firstRank inside
    rw [(isPath n inside).mem_iff]
    refine and_congr_right fun hb' => ?_
    rw [← rankToNode_eq_iff hb' bound, node]

variable {cluster : Cluster} (settings : Settings) {nChannels c : Nat}

def sourceChannel (nChannels c node : Nat) : Nat :=
  if exchanged settings nChannels node then c ^^^ 1 else c

theorem sourceChannel_lt (node : Nat) (channel : c < nChannels) :
    sourceChannel settings nChannels c node < nChannels := by
  unfold sourceChannel
  split
  next odd =>
    simp only [exchanged, Bool.and_eq_true, beq_iff_eq] at odd
    rcases Nat.even_or_odd c with even | odd'
    · rw [Nat.xor_one_of_even even]
      have := Nat.even_iff.mp even
      omega
    · rw [Nat.xor_one_of_odd odd']
      omega
  · exact channel

theorem allRings_eq (r : Nat) (channel : c < nChannels) :
    cluster.allRings settings nChannels r c = (topoPreset cluster r).ring
      (sourceChannel settings nChannels c (cluster.layout.rankToNode r)) := by
  unfold allRings sourceChannel
  split
  next odd =>
    simp only [exchanged, Bool.and_eq_true, beq_iff_eq] at odd
    exact exchangeRings_apply _ odd.1.2 channel
  · rfl

variable (cluster)

def nodePath (nChannels c node : Nat) : List Nat :=
  (cluster.graphs (cluster.hostOf (cluster.firstRank node))).ringIntra (sourceChannel settings nChannels c node)

variable {cluster}

section

variable (fits : ∀ r < cluster.nRanks, nChannels ≤ (cluster.graphs (cluster.hostOf r)).nChannels)
  (channel : c < nChannels)

include fits channel

theorem nodePath_isPath {node : Nat} (inside : node < cluster.layout.nNodes) :
    cluster.IsPath (cluster.firstRank node) (cluster.nodePath settings nChannels c node) := by
  have bound := (rankToNode_firstRank inside).1
  exact cluster.ringPath _ bound _ (lt_of_lt_of_le (sourceChannel_lt settings node channel) (fits _ bound))

theorem nodePaths :
    Paths cluster.layout.nNodes cluster.nRanks cluster.layout.rankToNode
      (cluster.nodePath settings nChannels c) :=
  paths_of_isPath fun _ hi => nodePath_isPath settings fits channel hi

theorem allRings_place {r : Nat} (bound : r < cluster.nRanks) :
    ∃ i : Nat, (cluster.nodePath settings nChannels c (cluster.layout.rankToNode r))[i]? = some r ∧
      cluster.allRings settings nChannels r c =
        ringPlace (cluster.nodePath settings nChannels c (cluster.layout.rankToNode r)) i := by
  have inside := cluster.layout.onNode r (by simpa using bound)
  obtain ⟨hf, node⟩ := rankToNode_firstRank inside
  have host := (rankToNode_eq_iff hf bound).mp node
  have source := sourceChannel_lt settings (cluster.layout.rankToNode r) channel
  rw [allRings_eq settings r channel, nodePath, host]
  exact ring_eq bound (lt_of_lt_of_le source (fits r bound))

theorem connectedRow_isRing : ∃ ring : Cycle Nat,
    (cluster.connectedRow settings nChannels c).IsRing cluster.nRanks ring := by
  have paths := nodePaths settings fits channel
  have ends : ∀ n < cluster.layout.nNodes, ∃ i, cluster.allRings settings nChannels (cluster.firstRank n) c =
      ringPlace (cluster.nodePath settings nChannels c n) i := by
    intro n hi
    obtain ⟨hb, node⟩ := rankToNode_firstRank hi
    obtain ⟨i, -, place⟩ := allRings_place settings fits channel hb
    rw [node] at place
    exact ⟨i, place⟩
  have same : cluster.connectedRow settings nChannels c = Paths.connected cluster.layout.nNodes
      (cluster.nodePath settings nChannels c) (cluster.gatherRow settings nChannels c) := by
    refine connectRings_congr ?_ ?_ <;>
    · intro n hi
      obtain ⟨i, place⟩ := ends n hi
      rw [place]
      rfl
  rw [same]
  refine ⟨_, paths.isRing ?_⟩
  intro n hi i r here
  obtain ⟨hb, node⟩ := (paths.mem_iff n hi r).mp (mem_of_getElem? here)
  obtain ⟨j, ht, place⟩ := allRings_place settings fits channel hb
  rw [node] at ht place
  obtain ⟨-, rfl⟩ := paths.place_unique hi hi here ht
  simp [gatherRow, place]

end

theorem topoPostset_all {rank : Nat} (inside : rank < cluster.nRanks) :
    (cluster.topoPostset settings rank).All fun row => ∃ ring : Cycle Nat, row.IsRing cluster.nRanks ring := by
  refine addChannels_all _ _ _ (Rings.All.duplicate ⟨alignedChannels_pos inside, ?_, ?_⟩)
  · have fits := alignedChannels_le inside inside
    have limit := cluster.channelLimit rank inside
    exact le_trans fits (le_trans limit (Nat.div_le_self _ _))
  · intro c channel
    exact connectedRow_isRing settings (fun r hb => alignedChannels_le inside hb) channel

end Cluster

/-- On every channel the pointers are one cycle through all ranks, and every rank builds this cycle
from itself on. -/
theorem postset_rings_close (cluster : Cluster) (settings : Settings) :
    ∃ nChannels, 0 < nChannels ∧ nChannels ≤ maxChannels ∧
      (∀ rank < cluster.nRanks, (cluster.topoPostset settings rank).nChannels = nChannels) ∧
      ∀ c < nChannels, ∃ ring : Cycle Nat, ∀ rank < cluster.nRanks,
        ((cluster.topoPostset settings rank).rows c).IsRing cluster.nRanks ring ∧
        ∃ rings, buildRings nChannels cluster.nRanks rank (cluster.topoPostset settings rank).rows = .ok rings ∧
          ∃ built : List Nat, rings[c]? = some built ∧ (built : Cycle Nat) = ring ∧ built.head? = some rank := by
  have same : ∀ rank < cluster.nRanks, cluster.topoPostset settings rank = cluster.topoPostset settings 0 := by
    intro rank hi
    simp [Cluster.topoPostset, Cluster.alignedChannels_eq hi cluster.someRank]
  have all := Cluster.topoPostset_all settings cluster.someRank
  refine ⟨(cluster.topoPostset settings 0).nChannels, all.pos, all.le, ?_, ?_⟩
  · intro rank hi
    rw [same rank hi]
  intro c channel
  obtain ⟨ring, his⟩ := all.rows c channel
  refine ⟨ring, ?_⟩
  intro rank hi
  rw [same rank hi]
  refine ⟨his, ?_⟩
  -- every channel is built, not only this one
  have each : ∀ r, ∃ built : List Nat, r < (cluster.topoPostset settings 0).nChannels →
      buildRing cluster.nRanks rank ((cluster.topoPostset settings 0).rows r) r = .ok built := by
    intro r
    by_cases hk : r < (cluster.topoPostset settings 0).nChannels
    · obtain ⟨_, isOther⟩ := all.rows r hk
      obtain ⟨built, ok, -⟩ := isOther.buildRing hi r
      exact ⟨built, fun _ => ok⟩
    · exact ⟨[], fun less => absurd less hk⟩
  choose built ok using each
  refine ⟨_, mapM_ok fun r mem => ok r (mem_range.mp mem), built c, ?_, ?_⟩
  · rw [getElem?_map, getElem?_range channel]
    rfl
  · obtain ⟨_, ok', hc, head⟩ := his.buildRing hi c
    rw [ok c channel] at ok'
    cases ok'
    exact ⟨hc, head⟩

def twoHosts : Cluster where
  nRanks := 5
  hostOf r := r % 2
  graphs host :=
    { ringChannels := 2
      treeChannels := 3
      ringIntra := fun c =>
        if host = 0 then if c = 0 then [2, 0, 4] else [4, 0, 2] else if c = 0 then [1, 3] else [3, 1]
      treeIntra := fun c =>
        if host = 0 then if c = 0 then [2, 4, 0] else [4, 2, 0] else if c = 0 then [1, 3] else [3, 1]
      pattern := if host = 0 then .balancedTree else .splitTree }
  someRank := by decide
  someChannel := by decide
  channelLimit := by decide
  ringPath := by decide
  treePath := by decide
  plainTree := by decide

def railSettings : Settings where
  crossNic := 2
  collNetSupport := false
  chainSaturated := false
  minCompCap := 80
  fastRing := false
  unpackDouble := false
  minNrings := -2
  minNchannels := -2
  maxNrings := -2
  maxNchannels := 3
  argsChannels := 100
  minCTAs := 5
  maxCTAs := 32
  nvlsChannels := 0
  topParent := none
  sharedParent := none
  ctas := by decide
  nvls := by decide
  topLimit := by decide
  sharedLimit := by decide

theorem twoHosts_rings :
    (twoHosts.topoPostset railSettings 3).nChannels = 5 ∧
      ∃ ring : Cycle Nat, ∀ rank < 5, ((twoHosts.topoPostset railSettings rank).rows 4).IsRing 5 ring := by
  have five : (twoHosts.topoPostset railSettings 3).nChannels = 5 := by decide +kernel
  refine ⟨five, ?_⟩
  obtain ⟨n, -, -, same, rings⟩ := postset_rings_close twoHosts railSettings
  obtain ⟨ring, each⟩ := rings 4 (by rw [← same 3 (by decide)]; decide)
  exact ⟨ring, fun rank hi => (each rank hi).1⟩

end Vccl.Topo
