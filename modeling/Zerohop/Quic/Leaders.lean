/-
# The addresses of the leaders

`get_leader_tpu_addresses` asks the RPC for the current slot, the leaders from
that slot on and the nodes of the cluster, keeps the QUIC address of each node
in a map, and pairs each leader that has one with its slot. The answers of the
RPC and the parser of public keys are given; `none` is a panic, where overflow
checks are on (`debug`) and a slot goes past 64 bits.

The map keeps the last address written for a key. The slot of a leader comes
from its place in the leader list, so a leader that is left out moves no other.

Key definitions: `getLeaderTpuAddresses`, `tpuMap`, `LastAddress`.
Key theorems: `leaders_resolved`, `scope_id_dropped`, `current_leader_resolved`.
-/
import Mathlib.Algebra.Ring.Nat
import Zerohop.Err
import Zerohop.Lib.LastWriter
import Zerohop.Shard.Pipeline

namespace Zerohop
namespace Quic

open LastWriter
open Shard (Pubkey)

/-! ### Addresses -/

/-- `IpAddr`. -/
inductive IpAddr where
  | v4 (octets : Vector UInt8 4)
  | v6 (octets : Vector UInt8 16)
deriving DecidableEq

/-- `SocketAddr`. -/
inductive SocketAddr where
  | v4 (ip : Vector UInt8 4) (port : UInt16)
  | v6 (ip : Vector UInt8 16) (port : UInt16) (flowinfo scopeId : UInt32)
deriving DecidableEq

namespace SocketAddr

/-- `SocketAddr::new`: flow label and scope id are 0. -/
def new (ip : IpAddr) (port : UInt16) : SocketAddr :=
  match ip with
  | .v4 octets => .v4 octets port
  | .v6 octets => .v6 octets port 0 0

def ip : SocketAddr → IpAddr
  | v4 ip _ => .v4 ip
  | v6 ip _ _ _ => .v6 ip

def port : SocketAddr → UInt16
  | v4 _ port => port
  | v6 _ port _ _ => port

/-- `set_port`: everything else stays. -/
def setPort : SocketAddr → UInt16 → SocketAddr
  | v4 ip _, port => .v4 ip port
  | v6 ip _ flowinfo scopeId, port => .v6 ip port flowinfo scopeId

/-- No flow label and no scope id. -/
def Plain : SocketAddr → Prop
  | v4 _ _ => True
  | v6 _ _ flowinfo scopeId => flowinfo = 0 ∧ scopeId = 0

end SocketAddr

/-- `tpu_quic_port`. -/
def tpuQuicPort (tpuPort : UInt16) : UInt16 :=
  UInt16.ofNat (min (tpuPort.toNat + 6) 65535)

/-- `to_tpu_quic_addr`. -/
def toTpuQuicAddr (tpuAddr : SocketAddr) : SocketAddr :=
  .new tpuAddr.ip (tpuQuicPort tpuAddr.port)

theorem tpuQuicPort_toNat (tpuPort : UInt16) :
    (tpuQuicPort tpuPort).toNat = min (tpuPort.toNat + 6) 65535 := by
  have hlt : min (tpuPort.toNat + 6) 65535 < UInt16.size := Nat.lt_succ_of_le (Nat.min_le_right _ _)
  exact UInt16.toNat_ofNat_of_lt' hlt

/-- The address keeps its IP and nothing of a flow label or scope id. -/
theorem toTpuQuicAddr_spec (tpuAddr : SocketAddr) : (toTpuQuicAddr tpuAddr).ip = tpuAddr.ip ∧
    (toTpuQuicAddr tpuAddr).port.toNat = min (tpuAddr.port.toNat + 6) 65535 ∧
    (toTpuQuicAddr tpuAddr).Plain := by
  cases tpuAddr with
  | v4 ip port => exact ⟨rfl, tpuQuicPort_toNat port, trivial⟩
  | v6 ip port flowinfo scopeId => exact ⟨rfl, tpuQuicPort_toNat port, rfl, rfl⟩

/-! ### What the RPC answers, and the function -/

/-- `RpcContactInfo`, the fields that are read. -/
structure RpcContactInfo where
  pubkey : String
  tpuQuic : Option SocketAddr
  tpu : Option SocketAddr

/-- `RpcClient`: its answers, an error as its text. -/
structure RpcClient where
  getSlot : Except String UInt64
  getSlotLeaders : UInt64 → UInt64 → Except String (List Pubkey)
  getClusterNodes : Except String (List RpcContactInfo)

/-- `LeaderTpuInfo`. -/
structure LeaderTpuInfo where
  pubkey : Pubkey
  slot : UInt64
  tpuQuicAddr : SocketAddr
deriving DecidableEq

section

variable (parse : String → Option Pubkey)

/-- One node of the cluster. -/
def insertNode (tpuMap : Pubkey → Option SocketAddr) (node : RpcContactInfo) :
    Pubkey → Option SocketAddr :=
  match node.tpuQuic with
  | some tpuQuic =>
    match parse node.pubkey with
    | some pubkey => Function.update tpuMap pubkey (some tpuQuic)
    | none => tpuMap
  | none =>
    match node.tpu with
    | some tpu =>
      match parse node.pubkey with
      | some pubkey => Function.update tpuMap pubkey (some (toTpuQuicAddr tpu))
      | none => tpuMap
    | none => tpuMap

/-- The map of public keys to addresses. -/
def tpuMap (clusterNodes : List RpcContactInfo) : Pubkey → Option SocketAddr :=
  clusterNodes.foldl (insertNode parse) fun _ => none

/-- `current_slot + i as u64`. -/
def slotAt (debug : Bool) (currentSlot : UInt64) (i : ℕ) : Option UInt64 :=
  if debug = true ∧ 2 ^ 64 ≤ currentSlot.toNat + i then none
  else some (currentSlot + UInt64.ofNat i)

/-- The loop over the leaders, from the `i`-th on. -/
def leaderLoop (debug : Bool) (tpuMap : Pubkey → Option SocketAddr) (currentSlot : UInt64) :
    ℕ → List LeaderTpuInfo → List Pubkey → Option (List LeaderTpuInfo)
  | _, result, [] => some result
  | i, result, leader :: leaders => do
    let slot ← slotAt debug currentSlot i
    match tpuMap leader with
    | some tpuQuicAddr =>
      leaderLoop debug tpuMap currentSlot (i + 1) (result ++ [⟨leader, slot, tpuQuicAddr⟩]) leaders
    | none => leaderLoop debug tpuMap currentSlot (i + 1) result leaders

/-- `get_leader_tpu_addresses`. -/
def getLeaderTpuAddresses (debug : Bool) (rpcClient : RpcClient) (numLeaders : Option UInt64) :
    Option (Except CatscopeZerohopError (List LeaderTpuInfo)) :=
  match rpcClient.getSlot with
  | .error e => some (.error (.connectionError ("Failed to get current slot: " ++ e)))
  | .ok currentSlot =>
    match rpcClient.getSlotLeaders currentSlot (numLeaders.getD 4) with
    | .error e => some (.error (.connectionError ("Failed to get slot leaders: " ++ e)))
    | .ok leaders =>
      match rpcClient.getClusterNodes with
      | .error e => some (.error (.connectionError ("Failed to get cluster nodes: " ++ e)))
      | .ok clusterNodes =>
        (leaderLoop debug (tpuMap parse clusterNodes) currentSlot 0 [] leaders).map .ok

/-! ### The map -/

/-- The address of a node: its own QUIC address, or the one computed from its TPU address. -/
def RpcContactInfo.addr (node : RpcContactInfo) : Option SocketAddr :=
  match node.tpuQuic with
  | some tpuQuic => some tpuQuic
  | none => node.tpu.map toTpuQuicAddr

/-- What a node writes to the map. -/
def offer (node : RpcContactInfo) : Option (Pubkey × SocketAddr) :=
  (parse node.pubkey).bind fun pubkey => node.addr.map fun addr => (pubkey, addr)

theorem insertNode_eq : insertNode parse = write (offer parse) := by
  funext tpuMap node
  unfold insertNode write offer RpcContactInfo.addr
  cases node.tpuQuic with
  | some tpuQuic => cases parse node.pubkey <;> rfl
  | none => cases node.tpu <;> cases parse node.pubkey <;> rfl

theorem tpuMap_eq (clusterNodes : List RpcContactInfo) :
    tpuMap parse clusterNodes = writeAll (offer parse) clusterNodes := by
  unfold tpuMap writeAll
  rw [insertNode_eq]

variable {parse}

theorem offer_eq_some {node : RpcContactInfo} {pubkey : Pubkey} {addr : SocketAddr} :
    offer parse node = some (pubkey, addr) ↔ parse node.pubkey = some pubkey ∧ node.addr = some addr := by
  unfold offer
  simp only [Option.bind_eq_some_iff, Option.map_eq_some_iff, Prod.mk.injEq]
  constructor
  · rintro ⟨p, hp, a, ha, rfl, rfl⟩
    exact ⟨hp, ha⟩
  · rintro ⟨hp, ha⟩
    exact ⟨pubkey, hp, addr, ha, rfl, rfl⟩

/-- The last node in the list that has an address and whose key parses to `pubkey` has this one. -/
def LastAddress (parse : String → Option Pubkey) (clusterNodes : List RpcContactInfo) (pubkey : Pubkey)
    (addr : SocketAddr) : Prop :=
  ∃ (j : ℕ) (node : RpcContactInfo), clusterNodes[j]? = some node ∧ parse node.pubkey = some pubkey ∧
    node.addr = some addr ∧ ∀ (m : ℕ) (later : RpcContactInfo), j < m → clusterNodes[m]? = some later →
      parse later.pubkey = some pubkey → later.addr = none

/-- **The map holds the address of the last node.** -/
theorem tpuMap_eq_some {clusterNodes : List RpcContactInfo} {pubkey : Pubkey} {addr : SocketAddr} :
    tpuMap parse clusterNodes pubkey = some addr ↔ LastAddress parse clusterNodes pubkey addr := by
  rw [tpuMap_eq, writeAll_eq_some]
  unfold LastNames LastAddress
  constructor
  · rintro ⟨j, node, hj, hnode, hlater⟩
    obtain ⟨hp, ha⟩ := offer_eq_some.mp hnode
    refine ⟨j, node, hj, hp, ha, ?_⟩
    intro m later hm hget hparse
    cases haddr : later.addr with
    | none => rfl
    | some a => exact absurd (offer_eq_some.mpr ⟨hparse, haddr⟩) (hlater m later a hm hget)
  · rintro ⟨j, node, hj, hp, ha, hlater⟩
    refine ⟨j, node, hj, offer_eq_some.mpr ⟨hp, ha⟩, ?_⟩
    intro m later w hm hget hw
    obtain ⟨hparse, haddr⟩ := offer_eq_some.mp hw
    rw [hlater m later hm hget hparse] at haddr
    cases haddr

theorem lastAddress_of_mem {clusterNodes : List RpcContactInfo} {pubkey : Pubkey} {node : RpcContactInfo}
    (hmem : node ∈ clusterNodes) (hparse : parse node.pubkey = some pubkey)
    (haddr : node.addr.isSome = true) : ∃ addr, LastAddress parse clusterNodes pubkey addr := by
  obtain ⟨a, ha⟩ := Option.isSome_iff_exists.mp haddr
  cases hmap : tpuMap parse clusterNodes pubkey with
  | some addr => exact ⟨addr, tpuMap_eq_some.mp hmap⟩
  | none =>
    rw [tpuMap_eq, writeAll_eq_none] at hmap
    exact absurd (offer_eq_some.mpr ⟨hparse, ha⟩) (hmap node hmem a)

/-- The nodes that can matter. -/
def RpcContactInfo.usable (parse : String → Option Pubkey) (node : RpcContactInfo) : Bool :=
  (parse node.pubkey).isSome && node.addr.isSome

/-- Nodes that are not usable are as if they were not listed. -/
theorem tpuMap_filter (clusterNodes : List RpcContactInfo) :
    tpuMap parse (clusterNodes.filter (·.usable parse)) = tpuMap parse clusterNodes := by
  funext pubkey
  rw [tpuMap_eq, tpuMap_eq]
  apply writeAll_filter
  intro node _ addr hnode
  obtain ⟨hp, ha⟩ := offer_eq_some.mp hnode
  unfold RpcContactInfo.usable
  rw [hp, ha]
  rfl

/-! ### The loop over the leaders -/

/-- The entries of the leaders from the `i`-th on. -/
def entriesFrom (tpuMap : Pubkey → Option SocketAddr) (currentSlot : UInt64) :
    ℕ → List Pubkey → List LeaderTpuInfo
  | _, [] => []
  | i, leader :: leaders =>
    match tpuMap leader with
    | some addr =>
      ⟨leader, currentSlot + UInt64.ofNat i, addr⟩ :: entriesFrom tpuMap currentSlot (i + 1) leaders
    | none => entriesFrom tpuMap currentSlot (i + 1) leaders

theorem leaderLoop_eq (debug : Bool) (tpuMap : Pubkey → Option SocketAddr) (currentSlot : UInt64)
    (leaders : List Pubkey) : ∀ (i : ℕ) (result : List LeaderTpuInfo),
      currentSlot.toNat + i + leaders.length < 2 ^ 64 →
      leaderLoop debug tpuMap currentSlot i result leaders =
        some (result ++ entriesFrom tpuMap currentSlot i leaders) := by
  induction leaders with
  | nil =>
    intro i result _
    rw [entriesFrom, List.append_nil]
    rfl
  | cons leader leaders ih =>
    intro i result hfit
    rw [List.length_cons] at hfit
    have hslot : slotAt debug currentSlot i = some (currentSlot + UInt64.ofNat i) := by
      unfold slotAt
      rw [if_neg (by omega)]
    unfold leaderLoop entriesFrom
    rw [hslot, Option.bind_eq_bind, Option.bind_some]
    cases tpuMap leader with
    | some addr =>
      show leaderLoop debug tpuMap currentSlot (i + 1) _ leaders = _
      rw [ih (i + 1) _ (by omega), List.append_assoc]
      rfl
    | none => exact ih (i + 1) result (by omega)

theorem slot_toNat {currentSlot : UInt64} {i : ℕ} (h : currentSlot.toNat + i < 2 ^ 64) :
    (currentSlot + UInt64.ofNat i).toNat = currentSlot.toNat + i := by
  have hi : (UInt64.ofNat i).toNat = i := UInt64.toNat_ofNat_of_lt' (by
    show i < 2 ^ 64
    omega)
  rw [UInt64.toNat_add, hi, Nat.mod_eq_of_lt h]

theorem mem_entriesFrom {tpuMap : Pubkey → Option SocketAddr} {currentSlot : UInt64} {info : LeaderTpuInfo}
    (leaders : List Pubkey) : ∀ i : ℕ, currentSlot.toNat + i + leaders.length < 2 ^ 64 →
      (info ∈ entriesFrom tpuMap currentSlot i leaders ↔ ∃ j : ℕ, leaders[j]? = some info.pubkey ∧
        info.slot.toNat = currentSlot.toNat + i + j ∧ tpuMap info.pubkey = some info.tpuQuicAddr) := by
  induction leaders with
  | nil => simp [entriesFrom]
  | cons leader leaders ih =>
    intro i hfit
    rw [List.length_cons] at hfit
    have ih := ih (i + 1) (by omega)
    -- the entries of the leaders behind the first
    have hrest : (∃ j : ℕ, (leader :: leaders)[j + 1]? = some info.pubkey ∧
        info.slot.toNat = currentSlot.toNat + i + (j + 1) ∧ tpuMap info.pubkey = some info.tpuQuicAddr) ↔
        info ∈ entriesFrom tpuMap currentSlot (i + 1) leaders := by
      rw [ih]
      refine exists_congr fun j => and_congr Iff.rfl (and_congr ?_ Iff.rfl)
      omega
    have hslot : (currentSlot + UInt64.ofNat i).toNat = currentSlot.toNat + i := slot_toNat (by omega)
    rw [← Nat.or_exists_add_one, hrest, entriesFrom]
    cases haddr : tpuMap leader with
    | none =>
      show info ∈ entriesFrom _ _ _ leaders ↔ _
      rw [or_iff_right]
      rintro ⟨hleader, -, hinfo⟩
      rw [List.getElem?_cons_zero, Option.some.injEq] at hleader
      rw [← hleader, haddr] at hinfo
      cases hinfo
    | some addr =>
      show info ∈ _ :: _ ↔ _
      rw [List.mem_cons]
      apply or_congr _ Iff.rfl
      constructor
      · rintro rfl
        exact ⟨rfl, hslot, haddr⟩
      · rintro ⟨hleader, hinfo, hmap⟩
        rw [List.getElem?_cons_zero, Option.some.injEq] at hleader
        obtain ⟨pubkey, slot, tpuQuicAddr⟩ := info
        simp only at hleader hinfo hmap
        subst hleader
        rw [haddr, Option.some.injEq] at hmap
        rw [Nat.add_zero, ← hslot, UInt64.toNat_inj] at hinfo
        rw [hinfo, hmap]

theorem entriesFrom_slots {tpuMap : Pubkey → Option SocketAddr} {currentSlot : UInt64}
    (leaders : List Pubkey) : ∀ i : ℕ, currentSlot.toNat + i + leaders.length < 2 ^ 64 →
      (entriesFrom tpuMap currentSlot i leaders).Pairwise fun a b => a.slot < b.slot := by
  induction leaders with
  | nil => exact fun _ _ => List.Pairwise.nil
  | cons leader leaders ih =>
    intro i hfit
    rw [List.length_cons] at hfit
    rw [entriesFrom]
    cases tpuMap leader with
    | none => exact ih (i + 1) (by omega)
    | some addr =>
      refine List.pairwise_cons.mpr ⟨?_, ih (i + 1) (by omega)⟩
      intro info hinfo
      obtain ⟨j, -, hslot, -⟩ := (mem_entriesFrom leaders (i + 1) (by omega)).mp hinfo
      rw [UInt64.lt_iff_toNat_lt, slot_toNat (by omega), hslot]
      omega

/-! ### The result -/

theorem SocketAddr.eq_of_plain {a b : SocketAddr} (hip : a.ip = b.ip) (hport : a.port = b.port)
    (ha : a.Plain) (hb : b.Plain) : a = b := by
  cases a with
  | v4 ip port =>
    cases b with
    | v4 ip' port' =>
      cases hip
      cases hport
      rfl
    | v6 => cases hip
  | v6 ip port flowinfo scopeId =>
    cases b with
    | v4 => cases hip
    | v6 ip' port' flowinfo' scopeId' =>
      cases hip
      cases hport
      rw [ha.1, ha.2, hb.1, hb.2]

theorem addr_eq_some {node : RpcContactInfo} {addr : SocketAddr} : node.addr = some addr ↔
    node.tpuQuic = some addr ∨ node.tpuQuic = none ∧ ∃ tpu, node.tpu = some tpu ∧ addr.ip = tpu.ip ∧
      addr.port.toNat = min (tpu.port.toNat + 6) 65535 ∧ addr.Plain := by
  unfold RpcContactInfo.addr
  cases node.tpuQuic with
  | some tpuQuic => simp
  | none =>
    rw [Option.map_eq_some_iff]
    constructor
    · rintro ⟨tpu, htpu, rfl⟩
      exact Or.inr ⟨rfl, tpu, htpu, toTpuQuicAddr_spec tpu⟩
    · rintro (hno | ⟨-, tpu, htpu, hip, hport, hplain⟩)
      · cases hno
      · obtain ⟨hip', hport', hplain'⟩ := toTpuQuicAddr_spec tpu
        refine ⟨tpu, htpu, SocketAddr.eq_of_plain (hip'.trans hip.symm) ?_ hplain' hplain⟩
        rw [← UInt16.toNat_inj, hport', hport]

theorem error_is_connectionError {debug : Bool} {rpcClient : RpcClient} {numLeaders : Option UInt64}
    {e : CatscopeZerohopError}
    (h : getLeaderTpuAddresses parse debug rpcClient numLeaders = some (.error e)) :
    ∃ msg, e = .connectionError msg := by
  unfold getLeaderTpuAddresses at h
  split at h
  · cases h
    exact ⟨_, rfl⟩
  · split at h
    · cases h
      exact ⟨_, rfl⟩
    · split at h
      · cases h
        exact ⟨_, rfl⟩
      · rw [Option.map_eq_some_iff] at h
        obtain ⟨infos, -, hinfos⟩ := h
        cases hinfos

theorem getLeaderTpuAddresses_eq {debug : Bool} {rpcClient : RpcClient} {numLeaders : Option UInt64}
    {currentSlot : UInt64} {leaders : List Pubkey} {clusterNodes : List RpcContactInfo}
    (hslot : rpcClient.getSlot = .ok currentSlot)
    (hleaders : rpcClient.getSlotLeaders currentSlot (numLeaders.getD 4) = .ok leaders)
    (hnodes : rpcClient.getClusterNodes = .ok clusterNodes)
    (hfit : currentSlot.toNat + leaders.length < 2 ^ 64) :
    getLeaderTpuAddresses parse debug rpcClient numLeaders =
      some (.ok (entriesFrom (tpuMap parse clusterNodes) currentSlot 0 leaders)) := by
  unfold getLeaderTpuAddresses
  simp only [hslot, hleaders, hnodes]
  rw [leaderLoop_eq debug _ currentSlot leaders 0 [] hfit]
  rfl

end

/-- **Each leader gets the address of the last node that has one for it**, in the order of the
slots, and no other entry is there. -/
theorem leaders_resolved (parse : String → Option Pubkey) (debug : Bool) {rpcClient : RpcClient}
    {numLeaders : Option UInt64} {currentSlot : UInt64} {leaders : List Pubkey}
    {clusterNodes : List RpcContactInfo} (hslot : rpcClient.getSlot = .ok currentSlot)
    (hleaders : rpcClient.getSlotLeaders currentSlot (numLeaders.getD 4) = .ok leaders)
    (hnodes : rpcClient.getClusterNodes = .ok clusterNodes)
    (hfit : currentSlot.toNat + leaders.length < 2 ^ 64) :
    ∃ infos : List LeaderTpuInfo,
      getLeaderTpuAddresses parse debug rpcClient numLeaders = some (.ok infos) ∧
      infos.Pairwise (fun a b => a.slot < b.slot) ∧
      (∀ info : LeaderTpuInfo, info ∈ infos ↔ ∃ i : ℕ, leaders[i]? = some info.pubkey ∧
        info.slot.toNat = currentSlot.toNat + i ∧
        LastAddress parse clusterNodes info.pubkey info.tpuQuicAddr) ∧
      (∀ (i : ℕ) (pubkey : Pubkey), leaders[i]? = some pubkey →
        (∃ node ∈ clusterNodes, parse node.pubkey = some pubkey ∧
          (node.tpuQuic.isSome ∨ node.tpu.isSome)) →
        ∃ info ∈ infos, info.pubkey = pubkey ∧ info.slot.toNat = currentSlot.toNat + i) ∧
      (∀ (node : RpcContactInfo) (addr : SocketAddr), node.addr = some addr ↔
        node.tpuQuic = some addr ∨ node.tpuQuic = none ∧ ∃ tpu, node.tpu = some tpu ∧
          addr.ip = tpu.ip ∧ addr.port.toNat = min (tpu.port.toNat + 6) 65535 ∧ addr.Plain) ∧
      getLeaderTpuAddresses parse debug
        { rpcClient with getClusterNodes := .ok (clusterNodes.filter (·.usable parse)) } numLeaders =
        some (.ok infos) := by
  have hmem : ∀ info : LeaderTpuInfo,
      info ∈ entriesFrom (tpuMap parse clusterNodes) currentSlot 0 leaders ↔
        ∃ i : ℕ, leaders[i]? = some info.pubkey ∧ info.slot.toNat = currentSlot.toNat + i ∧
          LastAddress parse clusterNodes info.pubkey info.tpuQuicAddr := by
    intro info
    simp only [mem_entriesFrom leaders 0 hfit, tpuMap_eq_some, Nat.add_zero]
  refine ⟨entriesFrom (tpuMap parse clusterNodes) currentSlot 0 leaders,
    getLeaderTpuAddresses_eq hslot hleaders hnodes hfit, entriesFrom_slots leaders 0 hfit, hmem, ?_,
    fun node addr => addr_eq_some, ?_⟩
  · rintro i pubkey hi ⟨node, hnode, hparse, haddr⟩
    have hsome : node.addr.isSome = true := by
      unfold RpcContactInfo.addr
      cases htpu : node.tpuQuic with
      | some tpuQuic => rfl
      | none =>
        rw [htpu] at haddr
        rw [Option.isSome_map]
        exact haddr.resolve_left (by simp)
    obtain ⟨addr, hlast⟩ := lastAddress_of_mem hnode hparse hsome
    have hlt := (List.getElem?_eq_some_iff.mp hi).1
    have hi' : (currentSlot + UInt64.ofNat i).toNat = currentSlot.toNat + i := slot_toNat (by omega)
    exact ⟨⟨pubkey, currentSlot + UInt64.ofNat i, addr⟩, (hmem _).mpr ⟨i, hi, hi', hlast⟩, rfl, hi'⟩
  · rw [← tpuMap_filter clusterNodes]
    exact getLeaderTpuAddresses_eq hslot hleaders rfl hfit

/-- The text of the key of 32 zero bytes, which is all that the examples below parse. -/
def parseZeroKey (text : String) : Option Pubkey :=
  if text = "11111111111111111111111111111111" then some (Vector.replicate 32 0) else none

/-- Two leaders from slot 7 on, the second with an address; one node has no parsable key. -/
def twoLeaders : RpcClient where
  getSlot := .ok 7
  getSlotLeaders _ _ := .ok [Vector.replicate 32 1, Vector.replicate 32 0]
  getClusterNodes := .ok [⟨"11111111111111111111111111111111", none, some (.v4 #v[127, 0, 0, 1] 8000)⟩,
    ⟨"", some (.v4 #v[127, 0, 0, 1] 9000), none⟩]

theorem twoLeaders_resolved : ∃ infos : List LeaderTpuInfo,
    getLeaderTpuAddresses parseZeroKey true twoLeaders none = some (.ok infos) ∧
      infos.Pairwise (fun a b => a.slot < b.slot) ∧
      ⟨Vector.replicate 32 0, 8, .v4 #v[127, 0, 0, 1] 8006⟩ ∈ infos := by
  have hslot : twoLeaders.getSlot = .ok 7 := rfl
  have hleaders : twoLeaders.getSlotLeaders 7 ((none : Option UInt64).getD 4) =
      .ok [Vector.replicate 32 1, Vector.replicate 32 0] := rfl
  obtain ⟨infos, hinfos, hslots, hmem, -⟩ :=
    leaders_resolved parseZeroKey true hslot hleaders rfl (by decide)
  refine ⟨infos, hinfos, hslots, (hmem _).mpr ⟨1, rfl, rfl, 0, _, rfl, if_pos rfl, rfl, ?_⟩⟩
  intro m later hm hget hparse
  match m with
  | 0 => omega
  | 1 =>
    cases hget
    cases hparse
  | m + 2 => cases hget

/-- A node with a TPU address of a scope of its own. -/
def scopedTpu : SocketAddr := .v6 #v[254, 128, 0, 0, 0, 0, 0, 0, 0, 0, 0, 0, 0, 0, 0, 1] 8000 0 1

def scopedNode : RpcClient where
  getSlot := .ok 7
  getSlotLeaders _ _ := .ok [Vector.replicate 32 0]
  getClusterNodes := .ok [⟨"11111111111111111111111111111111", none, some scopedTpu⟩]

/-- **The scope id is lost**: the address is not the TPU address with another port. -/
theorem scope_id_dropped : getLeaderTpuAddresses parseZeroKey true scopedNode none =
      some (.ok [⟨Vector.replicate 32 0, 7, toTpuQuicAddr scopedTpu⟩]) ∧
    toTpuQuicAddr scopedTpu ≠ scopedTpu.setPort (tpuQuicPort scopedTpu.port) := by
  refine ⟨?_, by decide⟩
  rfl

/-! ### The current leader -/

/-- `get_current_leader_tpu_address`. -/
def getCurrentLeaderTpuAddress (parse : String → Option Pubkey) (debug : Bool) (rpcClient : RpcClient) :
    Option (Except CatscopeZerohopError SocketAddr) := do
  match ← getLeaderTpuAddresses parse debug rpcClient (some (.ofNat 1)) with
  | .error e => some (.error e)
  | .ok leaders =>
    match leaders.head?.map LeaderTpuInfo.tpuQuicAddr with
    | some addr => some (.ok addr)
    | none => some (.error (.connectionError "No TPU address found for current leader"))

theorem entriesFrom_head? (tpuMap : Pubkey → Option SocketAddr) (currentSlot : UInt64)
    (leaders : List Pubkey) : ∀ i : ℕ,
      (entriesFrom tpuMap currentSlot i leaders).head?.map LeaderTpuInfo.tpuQuicAddr =
        leaders.findSome? tpuMap := by
  induction leaders with
  | nil => exact fun _ => rfl
  | cons leader leaders ih =>
    intro i
    rw [entriesFrom, List.findSome?_cons]
    cases tpuMap leader with
    | some addr => rfl
    | none => exact ih (i + 1)

/-- **One leader is asked for, and the first of those answered that has an
address is taken**: it need not be the leader of the current slot, if the RPC
answers more. The error is for the case that none has one. -/
theorem current_leader_resolved (parse : String → Option Pubkey) (debug : Bool) {rpcClient : RpcClient}
    {currentSlot : UInt64} {leaders : List Pubkey} {clusterNodes : List RpcContactInfo}
    (hslot : rpcClient.getSlot = .ok currentSlot)
    (hleaders : rpcClient.getSlotLeaders currentSlot (.ofNat 1) = .ok leaders)
    (hnodes : rpcClient.getClusterNodes = .ok clusterNodes)
    (hfit : currentSlot.toNat + leaders.length < 2 ^ 64) :
    (∀ addr, getCurrentLeaderTpuAddress parse debug rpcClient = some (.ok addr) ↔
      ∃ before pubkey after, leaders = before ++ pubkey :: after ∧
        LastAddress parse clusterNodes pubkey addr ∧
        ∀ p ∈ before, ∀ a, ¬ LastAddress parse clusterNodes p a) ∧
    (getCurrentLeaderTpuAddress parse debug rpcClient =
        some (.error (.connectionError "No TPU address found for current leader")) ↔
      ∀ p ∈ leaders, ∀ a, ¬ LastAddress parse clusterNodes p a) := by
  have hone : rpcClient.getSlotLeaders currentSlot ((some (.ofNat 1)).getD 4) = .ok leaders := hleaders
  have hcall : getCurrentLeaderTpuAddress parse debug rpcClient =
      match leaders.findSome? (tpuMap parse clusterNodes) with
      | some addr => some (.ok addr)
      | none => some (.error (.connectionError "No TPU address found for current leader")) := by
    unfold getCurrentLeaderTpuAddress
    rw [getLeaderTpuAddresses_eq hslot hone hnodes hfit,
      ← entriesFrom_head? (tpuMap parse clusterNodes) currentSlot leaders 0]
    rfl
  simp only [hcall, ← tpuMap_eq_some, ← ne_eq, ← Option.eq_none_iff_forall_ne_some]
  constructor
  · intro addr
    rw [← List.findSome?_eq_some_iff]
    cases leaders.findSome? (tpuMap parse clusterNodes) with
    | none => simp
    | some first => simp
  · rw [← List.findSome?_eq_none_iff]
    cases leaders.findSome? (tpuMap parse clusterNodes) with
    | none => simp
    | some first => simp

/-- `twoLeaders` answers more than it is asked for, and its first leader has no address. -/
theorem current_leader_is_second : getCurrentLeaderTpuAddress parseZeroKey true twoLeaders =
    some (.ok (.v4 #v[127, 0, 0, 1] 8006)) := by
  have hslot : twoLeaders.getSlot = .ok 7 := rfl
  have hleaders : twoLeaders.getSlotLeaders 7 (.ofNat 1) =
      .ok [Vector.replicate 32 1, Vector.replicate 32 0] := rfl
  have hfirst := (current_leader_resolved parseZeroKey true hslot hleaders rfl (by decide)).1
  refine (hfirst _).mpr ⟨[Vector.replicate 32 1], Vector.replicate 32 0, [], rfl, ?_, ?_⟩
  · refine ⟨0, _, rfl, if_pos rfl, rfl, ?_⟩
    intro m later hm hget hparse
    match m with
    | 0 => omega
    | 1 =>
      cases hget
      cases hparse
    | m + 2 => cases hget
  · rintro p hp a ⟨-, node, -, hparse, -⟩
    rw [List.mem_singleton.mp hp] at hparse
    unfold parseZeroKey at hparse
    split at hparse
    · exact absurd (Option.some.inj hparse) (by decide)
    · cases hparse

end Quic
end Zerohop
