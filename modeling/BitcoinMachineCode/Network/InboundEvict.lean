import Mathlib
import BitcoinMachineCode.Foundation.BackInsertion

/-!
# Which inbound peer makes room

`inbound_select_victim` of `inbound_evict.c`: five rounds protect peers one way each, the ratio step
protects half of those left, some of them for the network they come over, and of the rest the
largest network group loses its newest member.
-/

namespace BitcoinMachineCode.Network

open Foundation

/-- What is read of `rpc_peer_t`. -/
structure RpcPeer where
  used : Bool
  inbound : Bool
  perms : UInt32
  evictRequested : Bool
  connTime : Int
  lastTxTime : Int
  lastBlockTime : Int
  minPingUs : Int
  netGroup : UInt32
  relaytxes : Bool
  services : UInt64
  addr : List UInt8

def rpcMaxPeers : Nat := 128

def npNoban : UInt32 := 1

inductive EvNet where
  | other
  | onion
  | i2p
  | cjdns
  deriving DecidableEq

/-- `cand_t`; an address of this host is of no other network. -/
structure Cand where
  slot : Nat
  conn : Int
  tx : Int
  blk : Int
  ping : Int
  grp : UInt32
  kgrp : UInt64
  relayTxs : Bool
  relevant : Bool
  isLocal : Bool
  net : EvNet
  net_of_local : isLocal = true → net = .other

/-! ## Candidates -/

def mix64 (z : UInt64) : UInt64 :=
  let z := z + 0x9e3779b97f4a7c15
  let z := (z ^^^ (z >>> 30)) * 0xbf58476d1ce4e5b9
  let z := (z ^^^ (z >>> 27)) * 0x94d049bb133111eb
  z ^^^ (z >>> 31)

/-- `inbound_evict_keyed_group` once the key is drawn. -/
def keyedGroup (key0 key1 : UInt64) (grp : UInt32) : UInt64 := mix64 (mix64 (grp.toUInt64 ^^^ key0) ^^^ key1)

def lowerByte (b : UInt8) : UInt8 := if 0x41 ≤ b ∧ b ≤ 0x5a then b + 0x20 else b

/-- The name without a port, as `classify` cuts it into its buffer. -/
def hostOf (addr : List UInt8) : List UInt8 :=
  let host :=
    if addr.head? = some 0x5b then addr.tail.takeWhile (· ≠ 0x5d)
    else if addr.count 0x3a = 1 then addr.takeWhile (· ≠ 0x3a)
    else addr
  host.take 79

def endsWithName (host name : List UInt8) : Bool :=
  decide (name.length < host.length) && (host.drop (host.length - name.length)).map lowerByte == name

def onionName : List UInt8 := [0x2e, 0x6f, 0x6e, 0x69, 0x6f, 0x6e]

def i2pName : List UInt8 := [0x2e, 0x69, 0x32, 0x70]

/-- `classify`: whether the address is of this host, and its network. -/
def classify (addr : List UInt8) : Bool × EvNet :=
  let host := hostOf addr
  if endsWithName host onionName then (false, .onion)
  else if endsWithName host i2pName then (false, .i2p)
  else if host.take 4 = [0x31, 0x32, 0x37, 0x2e] ∨ host.take 2 = [0x30, 0x2e] ∨ host = [0x3a, 0x3a, 0x31] then
    (true, .other)
  else if 0x3a ∈ host ∧ host.head?.map lowerByte = some 0x66 ∧ host.tail.head?.map lowerByte = some 0x63 ∧
      host[4]? = some 0x3a then
    (false, .cjdns)
  else (false, .other)

theorem classify_local (addr : List UInt8) : (classify addr).1 = true → (classify addr).2 = .other := by
  simp only [classify]
  split_ifs <;> simp

def relevantServices (s : UInt64) : Bool :=
  let want : UInt64 := if s &&& 1024 ≠ 0 then 1024 ||| 8 else 1 ||| 8
  want &&& ~~~s == 0

/-- The largest value of the ping's type. -/
def llongMax : Int := 2 ^ 63 - 1

def candOf (key0 key1 : UInt64) (slot : Nat) (q : RpcPeer) : Cand where
  slot := slot
  conn := q.connTime
  tx := q.lastTxTime
  blk := q.lastBlockTime
  ping := if 0 < q.minPingUs then q.minPingUs else llongMax
  grp := q.netGroup
  kgrp := keyedGroup key0 key1 q.netGroup
  relayTxs := q.relaytxes
  relevant := relevantServices q.services
  isLocal := (classify q.addr).1
  net := (classify q.addr).2
  net_of_local := classify_local q.addr

/-- A peer that may have to go: inbound, without the no-ban permission and not going already. -/
def RpcPeer.Evictable (q : RpcPeer) : Prop :=
  q.used = true ∧ q.inbound = true ∧ q.perms &&& npNoban = 0 ∧ q.evictRequested = false

instance (q : RpcPeer) : Decidable q.Evictable := inferInstanceAs (Decidable (_ ∧ _ ∧ _ ∧ _))

def candidates (key0 key1 : UInt64) (peers : Nat → RpcPeer) (firstSlot lastSlot : Nat) : List Cand :=
  (List.range' firstSlot (min (lastSlot + 1) rpcMaxPeers - firstSlot)).filterMap fun i =>
    if (peers i).Evictable then some (candOf key0 key1 i (peers i)) else none

/-! ## Comparators: who stands before is the more likely to go -/

def cNetgroup (a b : Cand) : Bool := decide (a.kgrp < b.kgrp)

def cPing (a b : Cand) : Bool := decide (a.ping > b.ping)

def cConn (a b : Cand) : Bool := decide (a.conn > b.conn)

def cTx (a b : Cand) : Bool :=
  if a.tx ≠ b.tx then decide (a.tx < b.tx)
  else if a.relayTxs ≠ b.relayTxs then b.relayTxs
  else decide (a.conn > b.conn)

def cBlk (a b : Cand) : Bool :=
  if a.blk ≠ b.blk then decide (a.blk < b.blk)
  else if a.relevant ≠ b.relevant then b.relevant
  else decide (a.conn > b.conn)

def cBlkrelay (a b : Cand) : Bool := if a.relayTxs ≠ b.relayTxs then a.relayTxs else cBlk a b

/-- `ev_net_t`: a disadvantaged network, or this host, and how many candidates it has left. -/
structure NetCount where
  isLocal : Bool
  id : Option EvNet
  count : Nat

def predNet (net : NetCount) (x : Cand) : Bool := if net.isLocal then x.isLocal else decide (some x.net = net.id)

/-- `c_nettime` -/
def cNettime (net : NetCount) (a b : Cand) : Bool :=
  if predNet net a ≠ predNet net b then predNet net b else decide (a.conn > b.conn)

/-- `erase_last_k`: of the last `k` in the order, those that match go. -/
def eraseLastK (lt : Cand → Cand → Bool) (k : Nat) (pred : Cand → Bool) (c : List Cand) : List Cand :=
  let sorted := sortBack lt c
  sorted.take (sorted.length - k) ++ (sorted.drop (sorted.length - k)).filter fun x => !pred x

/-! ## The ratio step -/

structure Share where
  cands : List Cand
  protectedN : Nat
  any : Bool

/-- One round over the networks, each giving up so many at most; it ends early when enough are
protected, and then the counts are not used again. -/
def shareRound (per maxByNet : Nat) : List NetCount → Share → List NetCount × Share
  | [], s => ([], s)
  | net :: nets, s =>
      if net.count = 0 then
        let r := shareRound per maxByNet nets s
        (net :: r.1, r.2)
      else
        let cands := eraseLastK (cNettime net) per (predNet net) s.cands
        let erased := s.cands.length - cands.length
        if 0 < erased then
          let s' : Share := ⟨cands, s.protectedN + erased, true⟩
          if maxByNet ≤ s'.protectedN then (net :: nets, s')
          else
            let r := shareRound per maxByNet nets s'
            ({ net with count := net.count - erased } :: r.1, r.2)
        else
          let r := shareRound per maxByNet nets { s with cands := cands }
          (net :: r.1, r.2)

/-- A round that erases none reports so. -/
theorem protectedN_shareRound (per maxByNet : Nat) (nets : List NetCount) (s : Share) :
    s.protectedN ≤ (shareRound per maxByNet nets s).2.protectedN ∧
      ((shareRound per maxByNet nets s).2.any = true →
        s.any = true ∨ s.protectedN < (shareRound per maxByNet nets s).2.protectedN) := by
  fun_induction shareRound per maxByNet nets s with
  | case1 s => exact ⟨le_rfl, .inl⟩
  | case2 net nets s hzero r ih => exact ih
  | case3 net nets s hzero cands erased herased s' hdone =>
      exact ⟨Nat.le_add_right _ _, fun _ => .inr (Nat.lt_add_of_pos_right herased)⟩
  | case4 net nets s hzero cands erased herased s' hdone r ih =>
      have hlt : s.protectedN < s'.protectedN := Nat.lt_add_of_pos_right herased
      exact ⟨hlt.le.trans ih.1, fun _ => .inr (hlt.trans_le ih.1)⟩
  | case5 net nets s hzero cands erased herased r ih => exact ih

/-- How many networks have members left. -/
def numNets (nets : List NetCount) : Nat := nets.countP fun net => decide (net.count ≠ 0)

/-- The quota of a round. -/
def perNet (maxByNet protectedN n : Nat) : Nat := max 1 ((maxByNet - protectedN) / n)

def shareLoop (maxByNet : Nat) (nets : List NetCount) (s : Share) : Share :=
  if hlt : s.protectedN < maxByNet then
    if numNets nets = 0 then s
    else
      let r := shareRound (perNet maxByNet s.protectedN (numNets nets)) maxByNet nets { s with any := false }
      if hany : r.2.any = true then shareLoop maxByNet r.1 r.2 else r.2
  else s
termination_by maxByNet - s.protectedN
decreasing_by
  have hmore : s.protectedN < r.2.protectedN := by
    simpa using (protectedN_shareRound _ _ _ _).2 hany
  exact Nat.sub_lt_sub_left hlt hmore

def evNets : List NetCount :=
  [⟨false, some .cjdns, 0⟩, ⟨false, some .i2p, 0⟩, ⟨true, none, 0⟩, ⟨false, some .onion, 0⟩]

/-- The networks with their counts, the smallest first. -/
def countedNets (c : List Cand) : List NetCount :=
  sortBack (fun a b => decide (b.count > a.count)) (evNets.map fun net => { net with count := c.countP (predNet net) })

/-- The part of the ratio step that is shared between the networks. -/
def shareByNet (c : List Cand) : Share := shareLoop (c.length / 2 / 2) (countedNets c) ⟨c, 0, false⟩

def protectByRatio (c : List Cand) : List Cand :=
  let s := shareByNet c
  eraseLastK cConn (c.length / 2 - s.protectedN) (fun _ => true) s.cands

/-! ## The victim -/

structure Best where
  grp : UInt32
  cnt : Nat
  time : Int

/-- The loop over the candidates left: how many of its group each one ends, and the newest. -/
def bestFrom (seen : List Cand) : List Cand → Best → Best
  | [], b => b
  | x :: rest, b =>
      let seen := seen ++ [x]
      let same := seen.filter fun y => decide (y.grp = x.grp)
      let first := (same.head?.map (·.conn)).getD 0
      if b.cnt < same.length ∨ same.length = b.cnt ∧ b.time < first then bestFrom seen rest ⟨x.grp, same.length, first⟩
      else bestFrom seen rest b

/-- The candidates that no step protects, in the order of the last sort. -/
def unprotected (key0 key1 : UInt64) (peers : Nat → RpcPeer) (firstSlot lastSlot : Nat) : List Cand :=
  let c := candidates key0 key1 peers firstSlot lastSlot
  let c := eraseLastK cNetgroup 4 (fun _ => true) c
  let c := eraseLastK cPing 8 (fun _ => true) c
  let c := eraseLastK cTx 4 (fun _ => true) c
  let c := eraseLastK cBlkrelay 8 (fun x => !x.relayTxs && x.relevant) c
  let c := eraseLastK cBlk 4 (fun _ => true) c
  protectByRatio c

def inboundSelectVictim (key0 key1 : UInt64) (peers : Nat → RpcPeer) (firstSlot lastSlot : Nat) : Option Nat :=
  let c := unprotected key0 key1 peers firstSlot lastSlot
  let best := bestFrom [] c ⟨0, 0, 0⟩
  (c.find? fun x => decide (x.grp = best.grp)).map (·.slot)

/-! ## What one erasure takes -/

/-- What is left, and what goes. -/
theorem eraseLastK_split (lt : Cand → Cand → Bool) (k : Nat) (pred : Cand → Bool) (c : List Cand) :
    ∃ gone, (eraseLastK lt k pred c ++ gone).Perm c ∧ ∀ x ∈ gone, pred x = true := by
  let sorted := sortBack lt c
  let last := sorted.drop (sorted.length - k)
  refine ⟨last.filter pred, ?_, fun x hx => (List.mem_filter.mp hx).2⟩
  have hlast : (last.filter (fun x => !pred x) ++ last.filter pred).Perm last :=
    List.perm_append_comm.trans (List.filter_append_perm pred last)
  have hsorted : sorted.take (sorted.length - k) ++ last = sorted := List.take_append_drop _ _
  have hperm := hlast.append_left (sorted.take (sorted.length - k))
  rw [hsorted, ← List.append_assoc] at hperm
  exact hperm.trans (sortBack_perm c)

theorem length_eraseLastK_all (lt : Cand → Cand → Bool) (k : Nat) (c : List Cand) :
    (eraseLastK lt k (fun _ => true) c).length = c.length - k := by
  have hlen : (sortBack lt c).length = c.length := (sortBack_perm c).length_eq
  simp [eraseLastK, hlen]

theorem pairwise_eraseLastK_conn (k : Nat) (c : List Cand) :
    (eraseLastK cConn k (fun _ => true) c).Pairwise fun a b => b.conn ≤ a.conn := by
  have hsorted := @pairwise_sortBack _ cConn (by simp [cConn]; omega) (by simp [cConn]; omega) c
  have htake := hsorted.sublist (List.take_sublist ((sortBack cConn c).length - k) _)
  simpa [eraseLastK, cConn] using htake

theorem cNettime_asymm (net : NetCount) (a b : Cand) (h : cNettime net a b = true) : cNettime net b a = false := by
  simp only [cNettime] at h ⊢
  split_ifs at h ⊢ <;> simp_all
  omega

theorem cNettime_trans (net : NetCount) (a b c : Cand) (hab : cNettime net b a = false)
    (hbc : cNettime net c b = false) : cNettime net c a = false := by
  simp only [cNettime] at hab hbc ⊢
  split_ifs at hab hbc ⊢ <;> simp_all
  omega

/-- How many candidates a network has. -/
def members (c : List Cand) (net : NetCount) : Nat := c.countP (predNet net)

theorem members_perm {c c' : List Cand} (h : c.Perm c') (net : NetCount) : members c net = members c' net :=
  h.countP_eq _

theorem members_append (c c' : List Cand) (net : NetCount) :
    members (c ++ c') net = members c net + members c' net :=
  List.countP_append

/-- A network loses as many as the round allows, all of them its own. -/
theorem eraseLastK_net (net : NetCount) (per : Nat) (c : List Cand) :
    ∃ gone, (eraseLastK (cNettime net) per (predNet net) c ++ gone).Perm c ∧
      (∀ x ∈ gone, predNet net x = true) ∧ gone.length = min per (members c net) ∧
        members (eraseLastK (cNettime net) per (predNet net) c) net = members c net - per := by
  obtain ⟨gone, hperm, hgone⟩ := eraseLastK_split (cNettime net) per (predNet net) c
  have hsorted := pairwise_sortBack (cNettime_asymm net) (cNettime_trans net) c
  have hlast : (sortBack (cNettime net) c).Pairwise fun a b => predNet net a = true → predNet net b = true := by
    apply hsorted.imp
    intro a b h ha
    by_contra hb
    simp_all [cNettime]
  have hleft : members (eraseLastK (cNettime net) per (predNet net) c) net = members c net - per := by
    have hnone : ((sortBack (cNettime net) c).drop ((sortBack (cNettime net) c).length - per)
        |>.filter fun x => !predNet net x).countP (predNet net) = 0 := by
      simp [List.countP_eq_zero]
    have hcount : (sortBack (cNettime net) c).countP (predNet net) = c.countP (predNet net) :=
      (sortBack_perm c).countP_eq _
    rw [members, eraseLastK, List.countP_append, hnone, countP_take_of_last hlast, hcount]
    rfl
  refine ⟨gone, hperm, hgone, ?_, hleft⟩
  have hall : members gone net = gone.length := List.countP_eq_length.mpr hgone
  have htotal := members_perm hperm net
  rw [members_append] at htotal
  omega

/-! ## One round -/

/-- Which network an entry is for. -/
def NetCount.name (net : NetCount) : Bool × Option EvNet := (net.isLocal, net.id)

def evNames : List (Bool × Option EvNet) := evNets.map NetCount.name

theorem predNet_congr {a b : NetCount} (h : a.name = b.name) : predNet a = predNet b := by
  obtain ⟨hlocal, hid⟩ := Prod.mk.inj h
  funext x
  simp [predNet, hlocal, hid]

theorem members_congr {a b : NetCount} (h : a.name = b.name) (c : List Cand) : members c a = members c b := by
  rw [members, members, predNet_congr h]

/-- A candidate belongs to one network at most. -/
theorem predNet_disjoint {a b : NetCount} (ha : a.name ∈ evNames) (hb : b.name ∈ evNames) (hne : a.name ≠ b.name)
    {x : Cand} (hx : predNet a x = true) : predNet b x = false := by
  have hlocal := x.net_of_local
  obtain ⟨alocal, aid, acount⟩ := a
  obtain ⟨blocal, bid, bcount⟩ := b
  simp only [evNames, evNets, NetCount.name, List.map_cons, List.map_nil, List.mem_cons, Prod.mk.injEq,
    List.not_mem_nil, or_false] at ha hb hne
  rcases ha with ⟨rfl, rfl⟩ | ⟨rfl, rfl⟩ | ⟨rfl, rfl⟩ | ⟨rfl, rfl⟩ <;>
    rcases hb with ⟨rfl, rfl⟩ | ⟨rfl, rfl⟩ | ⟨rfl, rfl⟩ | ⟨rfl, rfl⟩ <;>
      simp_all [predNet]

/-- What a round does to the networks it goes over. -/
structure RoundSpec (per maxByNet : Nat) (nets : List NetCount) (s : Share) (r : List NetCount × Share) : Prop where
  names : r.1.map NetCount.name = nets.map NetCount.name
  gone : ∃ gone, (r.2.cands ++ gone).Perm s.cands ∧ r.2.protectedN = s.protectedN + gone.length
  frame : ∀ net, net.name ∈ evNames → net.name ∉ nets.map NetCount.name → members r.2.cands net = members s.cands net
  quota : ∀ net ∈ nets, members s.cands net ≤ members r.2.cands net + per
  full : r.2.protectedN < maxByNet → ∀ net ∈ nets, members r.2.cands net = members s.cands net - per
  counts : r.2.protectedN < maxByNet → ∀ net ∈ r.1, net.count = members r.2.cands net
  enough : s.protectedN + per * numNets nets ≤ maxByNet →
    r.2.protectedN ≤ maxByNet ∧ ∀ net ∈ nets, members r.2.cands net = members s.cands net - per
  single : per = 1 → r.2.protectedN ≤ maxByNet

theorem RoundSpec.nil {per maxByNet : Nat} {s : Share} (hlt : s.protectedN < maxByNet) :
    RoundSpec per maxByNet [] s ([], s) where
  names := rfl
  gone := ⟨[], by simp, rfl⟩
  frame := fun _ _ _ => rfl
  quota := by simp
  full := by simp
  counts := by simp
  enough := fun _ => ⟨hlt.le, by simp⟩
  single := fun _ => hlt.le

theorem RoundSpec.skip {per maxByNet : Nat} {net : NetCount} {nets : List NetCount} {s : Share}
    {r : List NetCount × Share} (hnet : net.name ∈ evNames) (hnew : net.name ∉ nets.map NetCount.name)
    (hcount : net.count = members s.cands net) (hzero : net.count = 0) (h : RoundSpec per maxByNet nets s r) :
    RoundSpec per maxByNet (net :: nets) s (net :: r.1, r.2) := by
  have hnone : members r.2.cands net = 0 := by
    rw [h.frame net hnet hnew, ← hcount, hzero]
  have hnum : numNets (net :: nets) = numNets nets := by
    simp [numNets, hzero]
  constructor
  · simp [h.names]
  · exact h.gone
  · intro x hx hout
    apply h.frame x hx
    simp only [List.map_cons, List.mem_cons, not_or] at hout
    exact hout.2
  · simp only [List.mem_cons, forall_eq_or_imp]
    exact ⟨by omega, h.quota⟩
  · intro hr
    simp only [List.mem_cons, forall_eq_or_imp]
    exact ⟨by omega, h.full hr⟩
  · intro hr
    simp only [List.mem_cons, forall_eq_or_imp]
    exact ⟨by omega, h.counts hr⟩
  · intro hle
    rw [hnum] at hle
    simp only [List.mem_cons, forall_eq_or_imp]
    exact ⟨(h.enough hle).1, by omega, (h.enough hle).2⟩
  · exact h.single

/-- A network gives up its share and the round goes on. -/
theorem RoundSpec.take {per maxByNet : Nat} {net net' : NetCount} {nets : List NetCount} {s s' : Share}
    {r : List NetCount × Share} {gone : List Cand} (hnet : net.name ∈ evNames)
    (hnew : net.name ∉ nets.map NetCount.name) (hname : net'.name = net.name) (hpos : net.count ≠ 0)
    (hcount' : net'.count = members s.cands net - per)
    (hperm : (s'.cands ++ gone).Perm s.cands) (hprot : s'.protectedN = s.protectedN + gone.length)
    (hgone : gone.length ≤ per) (hown : members s'.cands net = members s.cands net - per)
    (hother : ∀ x, x.name ∈ evNames → x.name ≠ net.name → members s'.cands x = members s.cands x)
    (hnames : ∀ x ∈ nets, x.name ∈ evNames)
    (h : RoundSpec per maxByNet nets s' r) :
    RoundSpec per maxByNet (net :: nets) s (net' :: r.1, r.2) := by
  have hsame : members r.2.cands net = members s.cands net - per := by
    rw [h.frame net hnet hnew, hown]
  have hnum : numNets (net :: nets) = numNets nets + 1 := by
    simp [numNets, hpos]
  have htail : ∀ x ∈ nets, members s'.cands x = members s.cands x := by
    intro x hx
    apply hother x (hnames x hx)
    intro heq
    exact hnew (heq ▸ List.mem_map_of_mem hx)
  constructor
  · simp [h.names, hname]
  · obtain ⟨more, hmore, hprot'⟩ := h.gone
    refine ⟨more ++ gone, ?_, ?_⟩
    · rw [← List.append_assoc]
      exact (hmore.append_right gone).trans hperm
    · rw [hprot', hprot, List.length_append]
      omega
  · intro x hx hout
    simp only [List.map_cons, List.mem_cons, not_or] at hout
    rw [h.frame x hx hout.2, hother x hx hout.1]
  · simp only [List.mem_cons, forall_eq_or_imp]
    refine ⟨by omega, fun x hx => ?_⟩
    rw [← htail x hx]
    exact h.quota x hx
  · intro hr
    simp only [List.mem_cons, forall_eq_or_imp]
    refine ⟨hsame, fun x hx => ?_⟩
    rw [← htail x hx]
    exact h.full hr x hx
  · intro hr
    simp only [List.mem_cons, forall_eq_or_imp]
    refine ⟨?_, h.counts hr⟩
    rw [members_congr hname, hsame, hcount']
  · intro hle
    rw [hnum, Nat.mul_succ] at hle
    obtain ⟨hprot', hfull⟩ := h.enough (by omega)
    simp only [List.mem_cons, forall_eq_or_imp]
    refine ⟨hprot', hsame, fun x hx => ?_⟩
    rw [← htail x hx]
    exact hfull x hx
  · exact h.single

/-- The round ends at a network. -/
theorem RoundSpec.stop {per maxByNet : Nat} {net : NetCount} {nets : List NetCount} {s s' : Share}
    {gone : List Cand} (hlt : s.protectedN < maxByNet) (hstop : maxByNet ≤ s'.protectedN)
    (hpos : net.count ≠ 0)
    (hperm : (s'.cands ++ gone).Perm s.cands) (hprot : s'.protectedN = s.protectedN + gone.length)
    (hgone : gone.length ≤ per) (hown : members s'.cands net = members s.cands net - per)
    (hother : ∀ x, x.name ∈ evNames → x.name ≠ net.name → members s'.cands x = members s.cands x)
    (hnew : net.name ∉ nets.map NetCount.name) (hnames : ∀ x ∈ nets, x.name ∈ evNames)
    (hcounts : ∀ x ∈ nets, x.count = members s.cands x) :
    RoundSpec per maxByNet (net :: nets) s (net :: nets, s') := by
  have hnum : numNets (net :: nets) = numNets nets + 1 := by
    simp [numNets, hpos]
  have htail : ∀ x ∈ nets, members s'.cands x = members s.cands x := by
    intro x hx
    apply hother x (hnames x hx)
    intro heq
    exact hnew (heq ▸ List.mem_map_of_mem hx)
  constructor
  · rfl
  · exact ⟨gone, hperm, hprot⟩
  · intro x hx hout
    simp only [List.map_cons, List.mem_cons, not_or] at hout
    exact hother x hx hout.1
  · simp only [List.mem_cons, forall_eq_or_imp]
    refine ⟨by omega, fun x hx => ?_⟩
    rw [htail x hx]
    exact Nat.le_add_right _ _
  · intro hr
    exact absurd hstop (Nat.not_le.mpr hr)
  · intro hr
    exact absurd hstop (Nat.not_le.mpr hr)
  · intro hle
    -- the round had room for every network, so this one was the last with members
    rw [hnum, Nat.mul_succ] at hle
    have hnone : numNets nets = 0 := by
      by_contra hne
      have : per * 1 ≤ per * numNets nets := Nat.mul_le_mul_left per (Nat.pos_of_ne_zero hne)
      omega
    have hprot' : s'.protectedN ≤ maxByNet := by
      rw [hnone, Nat.mul_zero] at hle
      omega
    refine ⟨hprot', ?_⟩
    simp only [List.mem_cons, forall_eq_or_imp]
    refine ⟨hown, fun x hx => ?_⟩
    have hzero : x.count = 0 := by
      simpa using List.countP_eq_zero.mp hnone x hx
    rw [htail x hx, ← hcounts x hx, hzero, Nat.zero_sub]
  · intro hone
    show s'.protectedN ≤ maxByNet
    omega

theorem roundSpec_shareRound {per maxByNet : Nat} (hper : 1 ≤ per) {nets : List NetCount} {s : Share}
    (hlt : s.protectedN < maxByNet) (hnodup : (nets.map NetCount.name).Nodup)
    (hnames : ∀ x ∈ nets, x.name ∈ evNames) (hcounts : ∀ x ∈ nets, x.count = members s.cands x) :
    RoundSpec per maxByNet nets s (shareRound per maxByNet nets s) := by
  induction nets generalizing s with
  | nil => exact RoundSpec.nil hlt
  | cons net nets ih =>
      simp only [List.map_cons, List.nodup_cons] at hnodup
      simp only [List.mem_cons, forall_eq_or_imp] at hnames hcounts
      obtain ⟨hnet, hnames⟩ := hnames
      obtain ⟨hcount, hcounts⟩ := hcounts
      by_cases hzero : net.count = 0
      · simp only [shareRound, if_pos hzero]
        exact RoundSpec.skip hnet hnodup.1 hcount hzero (ih hlt hnodup.2 hnames hcounts)
      obtain ⟨gone, hperm, hgone, hlen, hown⟩ := eraseLastK_net net per s.cands
      have herased : s.cands.length - (eraseLastK (cNettime net) per (predNet net) s.cands).length = gone.length := by
        have := hperm.length_eq
        rw [List.length_append] at this
        omega
      have hpos : 0 < gone.length := by omega
      have hother : ∀ x : NetCount, x.name ∈ evNames → x.name ≠ net.name →
          members (eraseLastK (cNettime net) per (predNet net) s.cands) x = members s.cands x := by
        intro x hx hne
        have hnone : members gone x = 0 := by
          apply List.countP_eq_zero.mpr
          intro y hy
          simp [predNet_disjoint hnet hx (Ne.symm hne) (hgone y hy)]
        rw [← members_perm hperm x, members_append, hnone, Nat.add_zero]
      simp only [shareRound, if_neg hzero, herased, if_pos hpos]
      split
      · next hstop =>
          exact RoundSpec.stop hlt hstop hzero hperm rfl (by omega) hown hother hnodup.1 hnames hcounts
      · next hgo =>
          refine RoundSpec.take hnet hnodup.1 rfl hzero
            (by simp only; omega) hperm rfl (by omega) hown hother hnames (ih (by simpa using hgo) hnodup.2 hnames ?_)
          intro x hx
          have hne : x.name ≠ net.name := fun heq => hnodup.1 (heq ▸ List.mem_map_of_mem hx)
          rw [hcounts x hx]
          exact (hother x (hnames x hx) hne).symm

/-! ## All rounds -/

/-- What holds between rounds, `c` the candidates at first: while rounds go on, a network with members
left has given up no fewer than any other. -/
structure ShareInv (maxByNet : Nat) (c : List Cand) (nets : List NetCount) (s : Share) : Prop where
  names : (nets.map NetCount.name).Perm evNames
  gone : ∃ gone, (s.cands ++ gone).Perm c ∧ s.protectedN = gone.length
  bound : s.protectedN ≤ maxByNet
  counts : s.protectedN < maxByNet → ∀ net ∈ nets, net.count = members s.cands net
  even : s.protectedN < maxByNet → ∀ a ∈ evNets, ∀ b ∈ evNets, 0 < members s.cands a →
    members c b + members s.cands a ≤ members c a + members s.cands b
  fair : ∀ a ∈ evNets, ∀ b ∈ evNets, 0 < members s.cands a →
    members c b + members s.cands a ≤ members c a + members s.cands b + 1

theorem nodup_evNames : evNames.Nodup := by decide

theorem exists_of_evNets {nets : List NetCount} (h : (nets.map NetCount.name).Perm evNames) {a : NetCount}
    (ha : a ∈ evNets) : ∃ net ∈ nets, net.name = a.name := by
  have : a.name ∈ nets.map NetCount.name := h.mem_iff.mpr (List.mem_map_of_mem ha)
  simpa using this

theorem perNet_spec (maxByNet protectedN n : Nat) :
    1 ≤ perNet maxByNet protectedN n ∧
      (perNet maxByNet protectedN n = 1 ∨ perNet maxByNet protectedN n * n ≤ maxByNet - protectedN) := by
  refine ⟨Nat.le_max_left _ _, ?_⟩
  rcases Nat.le_total ((maxByNet - protectedN) / n) 1 with h | h
  · exact .inl (max_eq_left h)
  · exact .inr (by
      rw [perNet, max_eq_right h]
      exact Nat.div_mul_le_self _ _)

/-- Every network gave up the quota, or all it had. -/
theorem ShareInv.even_step {maxByNet per : Nat} {c : List Cand} {nets : List NetCount} {s s' : Share}
    (h : ShareInv maxByNet c nets s) (hlt : s.protectedN < maxByNet)
    (hfull : ∀ net ∈ nets, members s'.cands net = members s.cands net - per) :
    ∀ a ∈ evNets, ∀ b ∈ evNets, 0 < members s'.cands a →
      members c b + members s'.cands a ≤ members c a + members s'.cands b := by
  intro a ha b hb hpos
  have hall : ∀ x ∈ evNets, members s'.cands x = members s.cands x - per := by
    intro x hx
    obtain ⟨net, hnet, hname⟩ := exists_of_evNets h.names hx
    rw [← members_congr hname, ← members_congr hname]
    exact hfull net hnet
  have hsa := hall a ha
  have hsb := hall b hb
  have := h.even hlt a ha b hb (by omega)
  omega

theorem ShareInv.round {maxByNet : Nat} {c : List Cand} {nets : List NetCount} {s : Share}
    (h : ShareInv maxByNet c nets s) (hlt : s.protectedN < maxByNet) :
    ShareInv maxByNet c
      (shareRound (perNet maxByNet s.protectedN (numNets nets)) maxByNet nets { s with any := false }).1
      (shareRound (perNet maxByNet s.protectedN (numNets nets)) maxByNet nets { s with any := false }).2 := by
  obtain ⟨hper, hquota⟩ := perNet_spec maxByNet s.protectedN (numNets nets)
  have hnames : ∀ x ∈ nets, x.name ∈ evNames :=
    fun x hx => h.names.mem_iff.mp (List.mem_map_of_mem hx)
  have spec : RoundSpec _ maxByNet nets { s with any := false } _ :=
    roundSpec_shareRound hper hlt (h.names.nodup_iff.mpr nodup_evNames) hnames (h.counts hlt)
  generalize shareRound (perNet maxByNet s.protectedN (numNets nets)) maxByNet nets { s with any := false } = r at spec
  generalize perNet maxByNet s.protectedN (numNets nets) = per at spec hper hquota
  have hless : ∀ net, members r.2.cands net ≤ members s.cands net := by
    intro net
    obtain ⟨gone, hperm, -⟩ := spec.gone
    have := members_perm hperm net
    rw [members_append] at this
    exact Nat.le.intro this
  have heven : (∀ net ∈ nets, members r.2.cands net = members s.cands net - per) →
      ∀ a ∈ evNets, ∀ b ∈ evNets, 0 < members r.2.cands a →
        members c b + members r.2.cands a ≤ members c a + members r.2.cands b :=
    h.even_step hlt
  have hroom : per * numNets nets ≤ maxByNet - s.protectedN → s.protectedN + per * numNets nets ≤ maxByNet := by
    omega
  constructor
  · rw [spec.names]
    exact h.names
  · obtain ⟨gone, hperm, hgone⟩ := h.gone
    obtain ⟨more, hmore, hprot⟩ := spec.gone
    refine ⟨more ++ gone, ?_, ?_⟩
    · rw [← List.append_assoc]
      exact (hmore.append_right gone).trans hperm
    · rw [hprot, List.length_append]
      simp only
      omega
  · rcases hquota with hone | hmul
    · exact spec.single hone
    · exact (spec.enough (hroom hmul)).1
  · exact spec.counts
  · intro hr
    exact heven (spec.full hr)
  · intro a ha b hb hpos
    rcases hquota with hone | hmul
    · -- one member each: the networks that the round did not reach are one behind
      obtain ⟨net, hnet, hname⟩ := exists_of_evNets h.names hb
      have hb' := spec.quota net hnet
      rw [members_congr hname, members_congr hname, hone] at hb'
      have ha' := hless a
      have := h.even hlt a ha b hb (by omega)
      simp only at hb'
      omega
    · exact (heven (spec.enough (hroom hmul)).2 a ha b hb hpos).trans (Nat.le_succ _)

theorem ShareInv.loop {maxByNet : Nat} {c : List Cand} {nets : List NetCount} {s : Share}
    (h : ShareInv maxByNet c nets s) : ∃ nets', ShareInv maxByNet c nets' (shareLoop maxByNet nets s) := by
  fun_induction shareLoop maxByNet nets s with
  | case1 nets s hlt hnum => exact ⟨nets, h⟩
  | case2 nets s hlt hnum r hany ih => exact ih (h.round hlt)
  | case3 nets s hlt hnum r hany => exact ⟨r.1, h.round hlt⟩
  | case4 nets s hlt => exact ⟨nets, h⟩

theorem shareInv_start (c : List Cand) (maxByNet : Nat) :
    ShareInv maxByNet c (countedNets c) ⟨c, 0, false⟩ := by
  have hperm : (countedNets c).Perm (evNets.map fun net => { net with count := c.countP (predNet net) }) :=
    sortBack_perm _
  constructor
  · exact hperm.map NetCount.name
  · exact ⟨[], by simp, rfl⟩
  · exact Nat.zero_le _
  · intro _ net hnet
    obtain ⟨x, -, rfl⟩ := List.mem_map.mp (hperm.mem_iff.mp hnet)
    exact congrArg c.countP (predNet_congr rfl)
  · intro _ a _ b _ _
    exact (Nat.add_comm _ _).le
  · intro a _ b _ _
    simp only
    omega

/-- The sharing between the networks, as a whole. -/
theorem shareByNet_spec (c : List Cand) :
    (∃ gone, ((shareByNet c).cands ++ gone).Perm c ∧ (shareByNet c).protectedN = gone.length) ∧
      (shareByNet c).protectedN ≤ c.length / 2 / 2 ∧
      ∀ a ∈ evNets, ∀ b ∈ evNets, 0 < members (shareByNet c).cands a →
        members c b - members (shareByNet c).cands b ≤ members c a - members (shareByNet c).cands a + 1 := by
  obtain ⟨nets, h⟩ := (shareInv_start c (c.length / 2 / 2)).loop
  refine ⟨h.gone, h.bound, ?_⟩
  intro a ha b hb hpos
  have hfair := h.fair a ha b hb hpos
  have hless : members (shareByNet c).cands a ≤ members c a := by
    obtain ⟨gone, hperm, -⟩ := h.gone
    have := members_perm hperm a
    rw [members_append] at this
    exact Nat.le.intro this
  have hfair' : members c b + members (shareByNet c).cands a ≤
      members c a + members (shareByNet c).cands b + 1 := hfair
  omega

/-- Half of the candidates are protected. -/
theorem protectByRatio_split (c : List Cand) :
    ∃ gone, (protectByRatio c ++ gone).Perm c ∧ gone.length = c.length / 2 := by
  obtain ⟨⟨shared, hshared, hprot⟩, hbound, -⟩ := shareByNet_spec c
  obtain ⟨old, hold, -⟩ :=
    eraseLastK_split cConn (c.length / 2 - (shareByNet c).protectedN) (fun _ => true) (shareByNet c).cands
  have hlen := length_eraseLastK_all cConn (c.length / 2 - (shareByNet c).protectedN) (shareByNet c).cands
  have hold' := hold.length_eq
  have hshared' := hshared.length_eq
  rw [List.length_append] at hold' hshared'
  refine ⟨old ++ shared, ?_, ?_⟩
  · rw [← List.append_assoc]
    exact (hold.append_right shared).trans hshared
  · rw [List.length_append]
    omega

theorem mem_of_mem_eraseLastK {lt : Cand → Cand → Bool} {k : Nat} {pred : Cand → Bool} {c : List Cand} {x : Cand}
    (h : x ∈ eraseLastK lt k pred c) : x ∈ c := by
  obtain ⟨gone, hperm, -⟩ := eraseLastK_split lt k pred c
  exact hperm.mem_iff.mp (List.mem_append_left gone h)

/-! ## The choice -/

/-- Which group is the largest of those seen. -/
structure BestInv (seen : List Cand) (b : Best) : Prop where
  most : ∀ g, seen.countP (fun y => decide (y.grp = g)) ≤ b.cnt
  attained : seen.countP (fun y => decide (y.grp = b.grp)) = b.cnt

theorem countP_snoc_grp (seen : List Cand) (x : Cand) (g : UInt32) :
    (seen ++ [x]).countP (fun y => decide (y.grp = g)) =
      seen.countP (fun y => decide (y.grp = g)) + if x.grp = g then 1 else 0 := by
  simp [List.countP_append, List.countP_cons]

theorem BestInv.bestFrom {seen rest : List Cand} {b : Best} (h : BestInv seen b) :
    BestInv (seen ++ rest) (bestFrom seen rest b) := by
  induction rest generalizing seen b with
  | nil => simpa [Network.bestFrom] using h
  | cons x rest ih =>
      have hassoc : seen ++ x :: rest = seen ++ [x] ++ rest := by simp
      have hcount : ((seen ++ [x]).filter fun y => decide (y.grp = x.grp)).length =
          seen.countP (fun y => decide (y.grp = x.grp)) + 1 := by
        rw [← List.countP_eq_length_filter, countP_snoc_grp, if_pos rfl]
      rw [hassoc, Network.bestFrom]
      simp only [hcount]
      split
      · next hbetter =>
          apply ih
          constructor
          · intro g
            rw [countP_snoc_grp]
            have := h.most g
            split_ifs with hg
            · subst hg
              exact le_rfl
            · show _ ≤ seen.countP _ + 1
              omega
          · rw [countP_snoc_grp, if_pos rfl]
      · next hworse =>
          have hle : seen.countP (fun y => decide (y.grp = x.grp)) + 1 ≤ b.cnt := by omega
          -- the best group has more members than this one had, so it is another
          have hne : x.grp ≠ b.grp := by
            intro heq
            have := h.attained
            rw [← heq] at this
            omega
          apply ih
          constructor
          · intro g
            rw [countP_snoc_grp]
            have := h.most g
            split_ifs with hg
            · subst hg
              exact hle
            · exact this
          · rw [countP_snoc_grp, if_neg hne]
            exact h.attained

theorem bestFrom_spec (c : List Cand) : BestInv c (bestFrom [] c ⟨0, 0, 0⟩) := by
  have h : BestInv [] ⟨0, 0, 0⟩ := ⟨by simp, rfl⟩
  exact h.bestFrom

theorem mem_candidates {key0 key1 : UInt64} {peers : Nat → RpcPeer} {firstSlot lastSlot : Nat} {x : Cand}
    (h : x ∈ candidates key0 key1 peers firstSlot lastSlot) :
    (firstSlot ≤ x.slot ∧ x.slot ≤ lastSlot ∧ x.slot < rpcMaxPeers) ∧ (peers x.slot).Evictable ∧
      x = candOf key0 key1 x.slot (peers x.slot) := by
  obtain ⟨i, hi, hx⟩ := List.mem_filterMap.mp h
  split at hx
  · next hok =>
      obtain rfl : candOf key0 key1 i (peers i) = x := by simpa using hx
      rw [List.mem_range'_1] at hi
      exact ⟨by simp only [candOf]; omega, hok, rfl⟩
  · cases hx

theorem mem_unprotected {key0 key1 : UInt64} {peers : Nat → RpcPeer} {firstSlot lastSlot : Nat} {x : Cand}
    (h : x ∈ unprotected key0 key1 peers firstSlot lastSlot) :
    x ∈ candidates key0 key1 peers firstSlot lastSlot := by
  simp only [unprotected] at h
  obtain ⟨gone, hperm, -⟩ := protectByRatio_split (eraseLastK cBlk 4 (fun _ => true)
    (eraseLastK cBlkrelay 8 (fun x => !x.relayTxs && x.relevant) (eraseLastK cTx 4 (fun _ => true)
      (eraseLastK cPing 8 (fun _ => true) (eraseLastK cNetgroup 4 (fun _ => true)
        (candidates key0 key1 peers firstSlot lastSlot))))))
  have hmem := hperm.mem_iff.mp (List.mem_append_left gone h)
  exact mem_of_mem_eraseLastK (mem_of_mem_eraseLastK (mem_of_mem_eraseLastK (mem_of_mem_eraseLastK
    (mem_of_mem_eraseLastK hmem))))

/-- The first of a list that is sorted newest first. -/
theorem conn_le_of_find {c : List Cand} (hsorted : c.Pairwise fun a b => b.conn ≤ a.conn) {p : Cand → Bool} {x : Cand}
    (h : c.find? p = some x) : ∀ y ∈ c, p y = true → y.conn ≤ x.conn := by
  obtain ⟨-, before, after, rfl, hbefore⟩ := List.find?_eq_some_iff_append.mp h
  intro y hy hp
  rcases List.mem_append.mp hy with hy | hy
  · have := hbefore y hy
    simp [hp] at this
  · rcases List.mem_cons.mp hy with rfl | hy
    · exact Int.le_refl _
    · exact (List.pairwise_cons.mp (List.pairwise_append.mp hsorted).2.1).1 y hy

theorem inboundSelectVictim_some {key0 key1 : UInt64} {peers : Nat → RpcPeer} {firstSlot lastSlot slot : Nat}
    (h : inboundSelectVictim key0 key1 peers firstSlot lastSlot = some slot) :
    ∃ x ∈ unprotected key0 key1 peers firstSlot lastSlot, x.slot = slot ∧
      (∀ y ∈ unprotected key0 key1 peers firstSlot lastSlot, y.grp = x.grp → y.conn ≤ x.conn) ∧
      ∀ g, (unprotected key0 key1 peers firstSlot lastSlot).countP (fun y => decide (y.grp = g)) ≤
        (unprotected key0 key1 peers firstSlot lastSlot).countP fun y => decide (y.grp = x.grp) := by
  simp only [inboundSelectVictim] at h
  obtain ⟨x, hfind, rfl⟩ := Option.map_eq_some_iff.mp h
  have hbest := bestFrom_spec (unprotected key0 key1 peers firstSlot lastSlot)
  have hgrp := List.find?_some hfind
  simp only [decide_eq_true_eq] at hgrp
  refine ⟨x, List.mem_of_find?_eq_some hfind, rfl, ?_, ?_⟩
  · intro y hy hyx
    apply conn_le_of_find (pairwise_eraseLastK_conn _ _) hfind y hy
    simp [hyx, hgrp]
  · intro g
    rw [hgrp, hbest.attained]
    exact hbest.most g

theorem inboundSelectVictim_none_iff {key0 key1 : UInt64} {peers : Nat → RpcPeer} {firstSlot lastSlot : Nat} :
    inboundSelectVictim key0 key1 peers firstSlot lastSlot = none ↔
      unprotected key0 key1 peers firstSlot lastSlot = [] := by
  have hbest := bestFrom_spec (unprotected key0 key1 peers firstSlot lastSlot)
  simp only [inboundSelectVictim, Option.map_eq_none_iff, List.find?_eq_none]
  constructor
  · intro hnone
    by_contra hne
    obtain ⟨x, rest, hx⟩ := List.exists_cons_of_ne_nil hne
    have hzero : (unprotected key0 key1 peers firstSlot lastSlot).countP (fun y => decide
        (y.grp = (bestFrom [] (unprotected key0 key1 peers firstSlot lastSlot) ⟨0, 0, 0⟩).grp)) = 0 :=
      List.countP_eq_zero.mpr hnone
    have hmost := hbest.most x.grp
    rw [← hbest.attained, hzero, hx] at hmost
    simp at hmost
  · intro hnil
    simp [hnil]

/-- The victim of an inbound slot, and what the ratio step protects. -/
theorem inbound_eviction :
    (∀ (key0 key1 : UInt64) (peers : Nat → RpcPeer) (firstSlot lastSlot : Nat),
      (∀ slot, inboundSelectVictim key0 key1 peers firstSlot lastSlot = some slot →
        (peers slot).inbound = true ∧ (peers slot).perms &&& npNoban = 0 ∧
        ∃ x ∈ unprotected key0 key1 peers firstSlot lastSlot, x = candOf key0 key1 slot (peers slot) ∧
          (∀ y ∈ unprotected key0 key1 peers firstSlot lastSlot, y.grp = x.grp → y.conn ≤ x.conn) ∧
          ∀ g, (unprotected key0 key1 peers firstSlot lastSlot).countP (fun y => decide (y.grp = g)) ≤
            (unprotected key0 key1 peers firstSlot lastSlot).countP fun y => decide (y.grp = x.grp)) ∧
      (inboundSelectVictim key0 key1 peers firstSlot lastSlot = none ↔
        unprotected key0 key1 peers firstSlot lastSlot = [])) ∧
    ∀ c : List Cand,
      (∃ gone, (protectByRatio c ++ gone).Perm c ∧ gone.length = c.length / 2) ∧
      (∃ gone, ((shareByNet c).cands ++ gone).Perm c ∧ (shareByNet c).protectedN = gone.length ∧
        gone.length ≤ c.length / 2 / 2) ∧
      ∀ a ∈ evNets, ∀ b ∈ evNets, 0 < members (shareByNet c).cands a →
        members c b - members (shareByNet c).cands b ≤ members c a - members (shareByNet c).cands a + 1 := by
  refine ⟨fun key0 key1 peers firstSlot lastSlot => ⟨?_, inboundSelectVictim_none_iff⟩, ?_⟩
  · intro slot h
    obtain ⟨x, hx, rfl, hnewest, hlargest⟩ := inboundSelectVictim_some h
    obtain ⟨-, hok, hcand⟩ := mem_candidates (mem_unprotected hx)
    exact ⟨hok.2.1, hok.2.2.1, x, hx, hcand, hnewest, hlargest⟩
  · intro c
    obtain ⟨⟨gone, hperm, hgone⟩, hbound, hfair⟩ := shareByNet_spec c
    exact ⟨protectByRatio_split c, ⟨gone, hperm, hgone, hgone ▸ hbound⟩, hfair⟩

end BitcoinMachineCode.Network
