import Mathlib.Tactic
import GrapheneLtp.Core.EarlyExit

/-!
# The CPU topology of the fuzzing harness

`LLVMFuzzerTestOneInput` takes a topology out of the words of a fuzzer input: for
each of its arrays a count and then the elements, with a look ahead before the
words of an element are read.  The number of huge page sizes comes from a header
of the code under test and is a parameter.
-/

namespace GrapheneLtp.CpuTopology

open EarlyExit

section Model

def maxCaches : ℕ := 4
def maxThreads : ℕ := 16
def maxCores : ℕ := 16
def maxSockets : ℕ := 16
def maxNumaNodes : ℕ := 16

structure PalCacheInfo where
  type : ℕ
  level : ℕ
  size : ℕ
  coherencyLineSize : ℕ
  numberOfSets : ℕ
  physicalLinePartition : ℕ
  deriving DecidableEq, Repr

structure PalCpuThreadInfo where
  isOnline : Bool
  coreId : ℕ
  idsOfCaches : List ℕ
  deriving DecidableEq, Repr

structure PalCpuCoreInfo where
  socketId : ℕ
  nodeId : ℕ
  deriving DecidableEq, Repr

structure PalSocketInfo where
  unused : ℕ
  deriving DecidableEq, Repr

structure PalNumaNodeInfo where
  isOnline : Bool
  nrHugepages : List ℕ
  deriving DecidableEq, Repr

/-- The topology.  An element is `none` as long as it is only what `calloc` left
there. -/
structure PalTopoInfo where
  cachesCnt : ℕ
  threadsCnt : ℕ
  coresCnt : ℕ
  socketsCnt : ℕ
  numaNodesCnt : ℕ
  caches : List (Option PalCacheInfo)
  threads : List (Option PalCpuThreadInfo)
  cores : List (Option PalCpuCoreInfo)
  sockets : List (Option PalSocketInfo)
  numaNodes : List (Option PalNumaNodeInfo)
  numaDistanceMatrix : List (Option ℕ)
  deriving DecidableEq, Repr

/-- A word of the input is read, or an element of an array is written. -/
inductive Access where
  | read (index : ℕ)
  | write (capacity index : ℕ)
  deriving DecidableEq, Repr

/-- The access stays inside an input of `size` bytes and inside the array. -/
def Access.Inside (size : ℕ) : Access → Prop
  | read index => index < size / 4
  | write capacity index => index < capacity

abbrev Step := OptionT (Traced Access)

/-- The word at an index, least significant byte first. -/
def wordAt (data : List UInt8) (index : ℕ) : ℕ := (List.range 4).foldr (fun k value =>
    (data.getD (4 * index + k) 0).toNat + 256 * value) 0

/-- `Data[index]`; there is no result outside the input. -/
def readWord (data : List UInt8) (index : ℕ) : Step ℕ := past (.read index)
    (if index < data.length / 4 then some (wordAt data index) else none)

/-- The words that a loop with an increasing index reads. -/
def readWords (data : List UInt8) (index count : ℕ) : Step (List ℕ) := forFrom (fun j words => do
    let word ← readWord data (index + j)
    pure (words ++ [word])) 0 count []

/-- An element is written; there is no result outside the array. -/
def store {α : Type} (array : List (Option α)) (i : ℕ) (value : α) : Step (List (Option α)) :=
  past (.write array.length i) (if i < array.length then some (array.set i (some value)) else none)

/-- `calloc`. -/
def calloc {α : Type} (capacity : ℕ) : List (Option α) := List.replicate capacity none

variable (data : List UInt8) (len : ℕ)

/-- The body of the loop over the caches, from the index on. -/
def cacheRound (i : ℕ) (state : ℕ × List (Option PalCacheInfo)) :
    Step (ℕ × List (Option PalCacheInfo)) :=
  let index := state.1
  if index + 5 ≥ len then earlyReturn
  else do
    let type ← readWord data index
    let level ← readWord data (index + 1)
    let size ← readWord data (index + 2)
    let lineSize ← readWord data (index + 3)
    let sets ← readWord data (index + 4)
    let partition ← readWord data (index + 5)
    let caches ← store state.2 i ⟨type % 3, level % 3 + 1, size % 2 ^ 30 + 1,
      lineSize % 2 ^ 16 + 1, sets % 2 ^ 30 + 1, partition % 2 ^ 16 + 1⟩
    pure (index + 6, caches)

/-- The body of the loop over the threads. -/
def threadRound (i : ℕ) (state : ℕ × List (Option PalCpuThreadInfo)) :
    Step (ℕ × List (Option PalCpuThreadInfo)) :=
  let index := state.1
  if index + 1 + maxCaches ≥ len then earlyReturn
  else do
    let online ← readWord data index
    if online % 2 = 1 then
      let core ← readWord data (index + 1)
      let ids ← readWords data (index + 2) maxCaches
      let threads ← store state.2 i ⟨true, core, ids⟩
      pure (index + 2 + maxCaches, threads)
    else
      let threads ← store state.2 i ⟨false, 0, List.replicate maxCaches (2 ^ 64 - 1)⟩
      pure (index + 1, threads)

/-- The body of the loop over the cores. -/
def coreRound (i : ℕ) (state : ℕ × List (Option PalCpuCoreInfo)) :
    Step (ℕ × List (Option PalCpuCoreInfo)) :=
  let index := state.1
  if index + 2 ≥ len then earlyReturn
  else do
    let socket ← readWord data index
    let node ← readWord data (index + 1)
    let cores ← store state.2 i ⟨socket, node⟩
    pure (index + 2, cores)

/-- The body of the loop over the sockets. -/
def socketRound (i : ℕ) (state : ℕ × List (Option PalSocketInfo)) :
    Step (ℕ × List (Option PalSocketInfo)) :=
  let index := state.1
  if index ≥ len then earlyReturn
  else do
    let unused ← readWord data index
    let sockets ← store state.2 i ⟨unused % 26 + 97⟩
    pure (index + 1, sockets)

/-- The body of the loop over the nodes.  The huge pages of a node that is not
online stay zero. -/
def nodeRound (hugepagesMax : ℕ) (i : ℕ) (state : ℕ × List (Option PalNumaNodeInfo)) :
    Step (ℕ × List (Option PalNumaNodeInfo)) :=
  let index := state.1
  if index + hugepagesMax + 1 ≥ len then earlyReturn
  else do
    let online ← readWord data index
    if online % 2 = 1 then
      let hugepages ← readWords data (index + 1) hugepagesMax
      let nodes ← store state.2 i ⟨true, hugepages⟩
      pure (index + 1 + hugepagesMax, nodes)
    else
      let nodes ← store state.2 i ⟨false, List.replicate hugepagesMax 0⟩
      pure (index + 1, nodes)

/-- The body of the inner loop over the distances. -/
def distanceRound (numaNodesCnt i j : ℕ) (state : ℕ × List (Option ℕ)) :
    Step (ℕ × List (Option ℕ)) :=
  let index := state.1
  if index ≥ len then earlyReturn
  else do
    let distance ← readWord data index
    let matrix ← store state.2 (i * numaNodesCnt + j) distance
    pure (index + 1, matrix)

/-- A count behind the elements that were read so far, and the index behind
it. -/
def readCount (capacity index : ℕ) : Step (ℕ × ℕ) :=
  if index + 1 ≥ len then earlyReturn
  else do
    let word ← readWord data index
    pure (word % capacity + 1, index + 1)

/-- The topology that is passed to the sanitizer, if the harness gets there. -/
def readTopology (hugepagesMax : ℕ) : Step PalTopoInfo := do
  let word ← readWord data 0
  let cachesCnt := word % maxCaches + 1
  let (index, caches) ← forFrom (cacheRound data len) 0 cachesCnt (1, calloc maxCaches)
  let (threadsCnt, index) ← readCount data len maxThreads index
  let (index, threads) ← forFrom (threadRound data len) 0 threadsCnt (index, calloc maxThreads)
  let (coresCnt, index) ← readCount data len maxCores index
  let (index, cores) ← forFrom (coreRound data len) 0 coresCnt (index, calloc maxCores)
  let (socketsCnt, index) ← readCount data len maxSockets index
  let (index, sockets) ← forFrom (socketRound data len) 0 socketsCnt (index, calloc maxSockets)
  let (numaNodesCnt, index) ← readCount data len maxNumaNodes index
  let (index, numaNodes) ← forFrom (nodeRound data len hugepagesMax) 0
    numaNodesCnt (index, calloc maxNumaNodes)
  let (_, matrix) ← forFrom (fun i state =>
    forFrom (distanceRound data len numaNodesCnt i) 0 numaNodesCnt state) 0
      numaNodesCnt (index, calloc (maxNumaNodes * maxNumaNodes))
  pure ⟨cachesCnt, threadsCnt, coresCnt, socketsCnt, numaNodesCnt, caches,
    threads, cores, sockets, numaNodes, matrix⟩

/-- The number of words as it is kept in an `int`. -/
def wordCount : ℤ := Int.bmod (data.length / 4 : ℕ) (2 ^ 32)

/-- `LLVMFuzzerTestOneInput`: the topology that the sanitizer gets, `none` after
an early return. -/
def llvmFuzzerTestOneInput (hugepagesMax : ℕ) (data : List UInt8) :
    Traced Access (Option PalTopoInfo) :=
  if data.length < 1 ∨ wordCount data < 1 then pure none
  else (readTopology data (wordCount data).toNat hugepagesMax).run

end Model

section Elements

/-- The first `count` elements of an array have been written, and no others. -/
def Filled {α : Type} (capacity count : ℕ) (array : List (Option α)) : Prop :=
  count ≤ capacity ∧ ∃ values : List α, values.length = count ∧
    array = values.map some ++ List.replicate (capacity - count) none

variable {α : Type} {array : List (Option α)} {capacity count : ℕ}

theorem filled_calloc (capacity : ℕ) : Filled capacity 0 (calloc capacity : List (Option α)) :=
  ⟨Nat.zero_le _, [], rfl, rfl⟩

theorem Filled.length (hfilled : Filled capacity count array) : array.length = capacity := by
  obtain ⟨hcount, values, rfl, rfl⟩ := hfilled
  rw [List.length_append, List.length_map, List.length_replicate, Nat.add_sub_of_le hcount]

/-- The elements are written in order. -/
theorem Filled.set (hfilled : Filled capacity count array) (hroom : count < capacity) (value : α) :
    Filled capacity (count + 1) (array.set count (some value)) := by
  obtain ⟨-, values, rfl, rfl⟩ := hfilled
  obtain ⟨more, hmore⟩ : ∃ more, capacity - values.length = more + 1 :=
    ⟨capacity - values.length - 1, by omega⟩
  refine ⟨hroom, values ++ [value], by simp, ?_⟩
  have hrest : capacity - (values.length + 1) = more := by omega
  rw [hmore, hrest, List.set_append_right _ _ (by simp), List.length_map,
    Nat.sub_self, List.replicate_succ, List.set_cons_zero, List.map_append,
    List.append_assoc]
  rfl

theorem keeps_store {size : ℕ} (hfilled : Filled capacity count array)
    (hroom : count < capacity) (value : α) :
    Keeps (Access.Inside size) (store array count value) (Filled capacity (count + 1)) := by
  have hinside : count < array.length := hfilled.length.symm ▸ hroom
  have hsafe : Access.Inside size (.write array.length count) := hinside
  rw [store, if_pos hinside]
  apply (Keeps.past hsafe).weaken
  rintro changed rfl
  exact hfilled.set hroom value

end Elements

section Words

variable {data : List UInt8}

theorem keeps_readWord {index : ℕ} (hindex : index < data.length / 4) :
    Keeps (Access.Inside data.length) (readWord data index) fun _ => True := by
  have hsafe : Access.Inside data.length (.read index) := hindex
  rw [readWord, if_pos hindex]
  exact (Keeps.past hsafe).weaken fun _ _ => trivial

/-- Some words that lie inside the input. -/
theorem keeps_readWords {index count : ℕ} (hcount : index + count ≤ data.length / 4) :
    Keeps (Access.Inside data.length) (readWords data index count) fun _ => True := by
  apply Keeps.forFrom (fun _ _ => True) _ trivial
  intro j words hj _
  apply Keeps.bind (keeps_readWord (by omega))
  intro word _
  exact Keeps.pure trivial

end Words

section Rounds

variable {data : List UInt8} {len : ℕ} (hlen : len ≤ data.length / 4) {i : ℕ}

include hlen

theorem keeps_cacheRound (hi : i < maxCaches) {state : ℕ × List (Option PalCacheInfo)}
    (hstate : Filled maxCaches i state.2) :
    Keeps (Access.Inside data.length) (cacheRound data len i state)
      fun next => Filled maxCaches (i + 1) next.2 := by
  apply Keeps.check
  intro hindex
  apply Keeps.bind (keeps_readWord (by omega))
  intro type _
  apply Keeps.bind (keeps_readWord (by omega))
  intro level _
  apply Keeps.bind (keeps_readWord (by omega))
  intro size _
  apply Keeps.bind (keeps_readWord (by omega))
  intro lineSize _
  apply Keeps.bind (keeps_readWord (by omega))
  intro sets _
  apply Keeps.bind (keeps_readWord (by omega))
  intro partition _
  apply Keeps.bind (keeps_store hstate hi _)
  intro caches hcaches
  exact Keeps.pure hcaches

theorem keeps_threadRound (hi : i < maxThreads) {state : ℕ × List (Option PalCpuThreadInfo)}
    (hstate : Filled maxThreads i state.2) :
    Keeps (Access.Inside data.length) (threadRound data len i state)
      fun next => Filled maxThreads (i + 1) next.2 := by
  apply Keeps.check
  intro hindex
  apply Keeps.bind (keeps_readWord (by omega))
  intro online _
  split
  · apply Keeps.bind (keeps_readWord (by omega))
    intro core _
    apply Keeps.bind (keeps_readWords (by omega))
    intro ids _
    apply Keeps.bind (keeps_store hstate hi _)
    intro threads hthreads
    exact Keeps.pure hthreads
  · apply Keeps.bind (keeps_store hstate hi _)
    intro threads hthreads
    exact Keeps.pure hthreads

theorem keeps_coreRound (hi : i < maxCores) {state : ℕ × List (Option PalCpuCoreInfo)}
    (hstate : Filled maxCores i state.2) :
    Keeps (Access.Inside data.length) (coreRound data len i state)
      fun next => Filled maxCores (i + 1) next.2 := by
  apply Keeps.check
  intro hindex
  apply Keeps.bind (keeps_readWord (by omega))
  intro socket _
  apply Keeps.bind (keeps_readWord (by omega))
  intro node _
  apply Keeps.bind (keeps_store hstate hi _)
  intro cores hcores
  exact Keeps.pure hcores

theorem keeps_socketRound (hi : i < maxSockets) {state : ℕ × List (Option PalSocketInfo)}
    (hstate : Filled maxSockets i state.2) :
    Keeps (Access.Inside data.length) (socketRound data len i state)
      fun next => Filled maxSockets (i + 1) next.2 := by
  apply Keeps.check
  intro hindex
  apply Keeps.bind (keeps_readWord (by omega))
  intro unused _
  apply Keeps.bind (keeps_store hstate hi _)
  intro sockets hsockets
  exact Keeps.pure hsockets

theorem keeps_nodeRound {hugepagesMax : ℕ} (hi : i < maxNumaNodes)
    {state : ℕ × List (Option PalNumaNodeInfo)}
    (hstate : Filled maxNumaNodes i state.2) :
    Keeps (Access.Inside data.length) (nodeRound data len hugepagesMax i state)
      fun next => Filled maxNumaNodes (i + 1) next.2 := by
  apply Keeps.check
  intro hindex
  apply Keeps.bind (keeps_readWord (by omega))
  intro online _
  split
  · apply Keeps.bind (keeps_readWords (by omega))
    intro hugepages _
    apply Keeps.bind (keeps_store hstate hi _)
    intro nodes hnodes
    exact Keeps.pure hnodes
  · apply Keeps.bind (keeps_store hstate hi _)
    intro nodes hnodes
    exact Keeps.pure hnodes

/-- The distances are written row by row, so the elements come in order. -/
theorem keeps_distanceRound {cnt j : ℕ} (hcnt : cnt ≤ maxNumaNodes)
    (hi : i < cnt) (hj : j < cnt) {state : ℕ × List (Option ℕ)}
    (hstate : Filled (maxNumaNodes * maxNumaNodes) (i * cnt + j) state.2) :
    Keeps (Access.Inside data.length) (distanceRound data len cnt i j state)
      fun next => Filled (maxNumaNodes * maxNumaNodes) (i * cnt + (j + 1))
        next.2 := by
  have hinside : i * cnt + j < maxNumaNodes * maxNumaNodes := by
    calc i * cnt + j < i * cnt + cnt := by omega
      _ = (i + 1) * cnt := by ring
      _ ≤ maxNumaNodes * maxNumaNodes := Nat.mul_le_mul (by omega) hcnt
  apply Keeps.check
  intro hindex
  apply Keeps.bind (keeps_readWord (by omega))
  intro distance _
  apply Keeps.bind (keeps_store hstate hinside _)
  intro matrix hmatrix
  exact Keeps.pure hmatrix

theorem keeps_readCount {capacity index : ℕ} (hcapacity : 0 < capacity) :
    Keeps (Access.Inside data.length) (readCount data len capacity index)
      fun result => result.1 ≤ capacity := by
  apply Keeps.check
  intro hindex
  apply Keeps.bind (keeps_readWord (by omega))
  intro word _
  exact Keeps.pure (Nat.mod_lt word hcapacity)

end Rounds

section Topology

/-- Every count is the number of the elements that have been written. -/
structure PalTopoInfo.Initialised (topo : PalTopoInfo) : Prop where
  caches : Filled maxCaches topo.cachesCnt topo.caches
  threads : Filled maxThreads topo.threadsCnt topo.threads
  cores : Filled maxCores topo.coresCnt topo.cores
  sockets : Filled maxSockets topo.socketsCnt topo.sockets
  numaNodes : Filled maxNumaNodes topo.numaNodesCnt topo.numaNodes
  numaDistanceMatrix : Filled (maxNumaNodes * maxNumaNodes)
    (topo.numaNodesCnt * topo.numaNodesCnt) topo.numaDistanceMatrix

variable {data : List UInt8} {len : ℕ}

/-- A loop that fills an array from its first element on. -/
theorem keeps_fill {α : Type} {size capacity count index : ℕ}
    {body : ℕ → ℕ × List (Option α) → Step (ℕ × List (Option α))}
    (hcount : count ≤ capacity)
    (hbody : ∀ i state, i < capacity → Filled capacity i state.2 →
      Keeps (Access.Inside size) (body i state) fun next =>
        Filled capacity (i + 1) next.2) :
    Keeps (Access.Inside size) (forFrom body 0 count (index, calloc capacity))
      fun final => Filled capacity count final.2 := by
  have hloop : Keeps (Access.Inside size) (forFrom body 0 count (index, calloc capacity))
      fun final => Filled capacity (0 + count) final.2 := by
    apply Keeps.forFrom fun i (state : ℕ × List (Option α)) =>
      Filled capacity i state.2
    · intro i state hi hstate
      exact hbody i state (by omega) hstate
    · exact filled_calloc capacity
  rwa [Nat.zero_add] at hloop

/-- The loops over the distances. -/
theorem keeps_distances (hlen : len ≤ data.length / 4) {cnt index : ℕ} (hcnt : cnt ≤ maxNumaNodes) :
    Keeps (Access.Inside data.length)
      (forFrom (fun i state => forFrom (distanceRound data len cnt i) 0 cnt state)
        0 cnt (index, calloc (maxNumaNodes * maxNumaNodes)))
      fun final => Filled (maxNumaNodes * maxNumaNodes) (cnt * cnt) final.2 := by
  have hloops : Keeps (Access.Inside data.length)
      (forFrom (fun i state => forFrom (distanceRound data len cnt i) 0 cnt state)
        0 cnt (index, calloc (maxNumaNodes * maxNumaNodes)))
      fun final => Filled (maxNumaNodes * maxNumaNodes) ((0 + cnt) * cnt)
        final.2 := by
    apply Keeps.forFrom fun i (state : ℕ × List (Option ℕ)) =>
      Filled (maxNumaNodes * maxNumaNodes) (i * cnt) state.2
    · intro i state hi hstate
      have hrow : Keeps (Access.Inside data.length)
          (forFrom (distanceRound data len cnt i) 0 cnt state)
          fun final => Filled (maxNumaNodes * maxNumaNodes) (i * cnt + (0 + cnt)) final.2 := by
        apply Keeps.forFrom fun j (state : ℕ × List (Option ℕ)) =>
          Filled (maxNumaNodes * maxNumaNodes) (i * cnt + j) state.2
        · intro j state hj hstate
          exact keeps_distanceRound hlen hcnt (by omega) (by omega) hstate
        · exact hstate
      rwa [show i * cnt + (0 + cnt) = (i + 1) * cnt by ring] at hrow
    · rw [Nat.zero_mul]
      exact filled_calloc _
  rwa [Nat.zero_add] at hloops

/-- The harness stays inside its input and its arrays, and what it has built has
true counts. -/
theorem keeps_readTopology (hlen : len ≤ data.length / 4) (hpositive : 0 < len) (hugepagesMax : ℕ) :
    Keeps (Access.Inside data.length) (readTopology data len hugepagesMax)
      PalTopoInfo.Initialised := by
  apply Keeps.bind (keeps_readWord (by omega))
  intro word _
  have hcachesCnt : word % maxCaches + 1 ≤ maxCaches := Nat.mod_lt word (by decide)
  apply Keeps.bind (keeps_fill hcachesCnt fun i state hi =>
    keeps_cacheRound hlen hi)
  rintro ⟨index, caches⟩ hcaches
  apply Keeps.bind (keeps_readCount hlen (by decide))
  rintro ⟨threadsCnt, index⟩ hthreadsCnt
  apply Keeps.bind (keeps_fill hthreadsCnt fun i state hi =>
    keeps_threadRound hlen hi)
  rintro ⟨index, threads⟩ hthreads
  apply Keeps.bind (keeps_readCount hlen (by decide))
  rintro ⟨coresCnt, index⟩ hcoresCnt
  apply Keeps.bind (keeps_fill hcoresCnt fun i state hi => keeps_coreRound hlen hi)
  rintro ⟨index, cores⟩ hcores
  apply Keeps.bind (keeps_readCount hlen (by decide))
  rintro ⟨socketsCnt, index⟩ hsocketsCnt
  apply Keeps.bind (keeps_fill hsocketsCnt fun i state hi =>
    keeps_socketRound hlen hi)
  rintro ⟨index, sockets⟩ hsockets
  apply Keeps.bind (keeps_readCount hlen (by decide))
  rintro ⟨numaNodesCnt, index⟩ hnodesCnt
  apply Keeps.bind (keeps_fill hnodesCnt fun i state hi => keeps_nodeRound hlen hi)
  rintro ⟨index, nodes⟩ hnodes
  apply Keeps.bind (keeps_distances hlen hnodesCnt)
  rintro ⟨index, matrix⟩ hmatrix
  exact Keeps.pure ⟨hcaches, hthreads, hcores, hsockets, hnodes, hmatrix⟩

/-- The number of words that is kept in an `int` is not too large, whatever the
size of the input. -/
theorem wordCount_le (hpositive : ¬ wordCount data < 1) :
    (wordCount data).toNat ≤ data.length / 4 := by
  unfold wordCount Int.bmod at *
  dsimp only at *
  split_ifs at * <;> omega

/-- For every input, only words below a quarter of its size are read, only
elements of the arrays are written, and the counts of the topology that the
sanitizer gets are the numbers of its initialised elements. -/
theorem llvmFuzzerTestOneInput_inside (hugepagesMax : ℕ) (data : List UInt8) :
    (∀ access ∈ (llvmFuzzerTestOneInput hugepagesMax data).events, access.Inside data.length) ∧
    ∃ outcome, (llvmFuzzerTestOneInput hugepagesMax data).result = some outcome ∧
      ∀ topo, outcome = some topo → topo.Initialised := by
  have hkeeps : Traced.Completes (Access.Inside data.length)
      (llvmFuzzerTestOneInput hugepagesMax data) fun outcome =>
        ∀ topo, outcome = some topo → topo.Initialised := by
    rw [llvmFuzzerTestOneInput]
    split
    · apply Traced.Completes.pure
      rintro topo ⟨⟩
    · rename_i hwords
      rw [not_or] at hwords
      have hpositive : 0 < (wordCount data).toNat := by omega
      exact keeps_readTopology (wordCount_le hwords.2) hpositive hugepagesMax
  exact ⟨hkeeps.2, hkeeps.1⟩

/-- An input of zeros reaches the sanitizer. -/
example : ((llvmFuzzerTestOneInput 2 (List.replicate 100 0)).result.map
    Option.isSome) = some true := by
  decide +kernel

end Topology

end GrapheneLtp.CpuTopology
