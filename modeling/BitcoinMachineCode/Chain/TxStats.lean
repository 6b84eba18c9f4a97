import BitcoinMachineCode.Consensus.Sha256
import BitcoinMachineCode.Consensus.TxBytes
import BitcoinMachineCode.Foundation.LinkedChain
import Mathlib.Algebra.Order.BigOperators.Group.List

/-!
# Counting the transactions of the chain

`ctx_at` of `rpc_chain.c` keeps the running transaction count of every height it has walked,
with the first eight bytes of the block's hash.  Another process appends to the archive,
truncates it and replaces blocks while a call is under way: every read of the index or of a
block file happens at a moment of its own, and what is found there is what the archive holds
at that moment.  The reads ahead, which only warm the disk, are left out.
-/

namespace BitcoinMachineCode.Chain.TxStats

open Foundation Consensus

/-! ## Blocks and the archive -/

def countOf (bytes : List UInt8) : Nat :=
  ((readVarint false false (bytes.drop 80)).map Prod.fst).getD 0

/-- A block as it is stored: a header, the number of its transactions and the transactions, each
of at least a byte.  Sizes have 32 bits. -/
structure Blk where
  bytes : List UInt8
  length_ge : 89 ≤ bytes.length
  length_lt : bytes.length < 2 ^ 32
  count_le : countOf bytes ≤ bytes.length

namespace Blk

def header (b : Blk) : List UInt8 := b.bytes.take 80

def hash (b : Blk) : List UInt8 := (sha256d b.header).1

def prevHash (b : Blk) : List UInt8 := (b.bytes.drop 4).take 32

def txCount (b : Blk) : Nat := countOf b.bytes

end Blk

/-- `ctx_tag_of` -/
def ctxTagOf (hash : List UInt8) : List UInt8 := hash.take 8

/-- Where an index record says a block is: file, offset and size. -/
structure BlockAt where
  file : Nat
  off : Nat
  size : Nat

/-- What each read finds at each moment. -/
structure World where
  /-- the blocks the index names -/
  chain : Nat → List Blk
  /-- the record of a height can be read -/
  readable : Nat → Nat → Bool
  /-- `store_get_at` -/
  getAt : Nat → Nat → Option BlockAt
  /-- the block that starts at an offset of a file -/
  stored : Nat → Nat → Nat → Option Blk
  /-- the arrays can grow -/
  grows : Nat → Bool

namespace World

variable (w : World)

/-- `read_idx_rec`: the hash the index has for a height. -/
def readIdxRec (now h : Nat) : Option (List UInt8) :=
  if w.readable now h then ((w.chain now)[h]?).map Blk.hash else none

/-- `read_block_prefix`: the record first, then the bytes; short ones are filled up with
zeros. -/
def readBlockPrefix (now h : Nat) : Option (List UInt8) :=
  match w.getAt now h with
  | none => none
  | some place =>
      if place.size = 0 then none
      else (w.stored (now + 1) place.file place.off).map fun b =>
        b.bytes.take (min 89 place.size) ++ List.replicate (89 - place.size) 0

end World

def recPresent (hash : List UInt8) : Bool := decide (leVal (hash.take 4) ≠ 0)

/-! ## The cache -/

/-- Tag and running count of every height walked, and the moment. -/
structure Ctx where
  cache : List (List UInt8 × Nat)
  now : Nat

inductive Extended where
  | covered
  | unreadable
  | unlinked
  deriving DecidableEq

section Code

variable (w : World)

def ctxMatches (s : Ctx) (h : Nat) : Bool × Ctx :=
  match s.cache[h]? with
  | none => (false, s)
  | some entry =>
      (match w.readIdxRec s.now h with
        | none => false
        | some hash => recPresent hash && decide (ctxTagOf hash = entry.1),
        { s with now := s.now + 1 })

/-- The heights from `lo` up to below `hi` are still to be searched, and `keep` heights match. -/
def unwindLoop : Nat → Nat → Nat → Nat → Ctx → Ctx
  | 0, _, _, keep, s => { s with cache := s.cache.take keep }
  | k + 1, lo, hi, keep, s =>
      if lo < hi then
        let mid := lo + (hi - 1 - lo) / 2
        let r := ctxMatches w s mid
        if r.1 then unwindLoop k (mid + 1) hi (mid + 1) r.2 else unwindLoop k lo mid keep r.2
      else { s with cache := s.cache.take keep }

def ctxUnwind (bad : Nat) (s : Ctx) : Ctx :=
  unwindLoop w (s.cache.length + 1) 0 (min bad s.cache.length) 0 s

/-- The next height of the cache, from its block. -/
def extendOne (s : Ctx) : Extended × Ctx :=
  let s' := { s with now := s.now + 2 }
  match w.readBlockPrefix s.now s.cache.length with
  | none => (.unreadable, s')
  | some pre =>
      match readVarint false false (pre.drop 80) with
      | none => (.unreadable, s')
      | some (n, _) =>
          if s.cache.getLast?.any fun top => decide ((pre.drop 4).take 8 ≠ top.1) then (.unlinked, s')
          else
            (.covered, { s' with
              cache := s.cache ++ [(ctxTagOf (sha256d (pre.take 80)).1,
                ((s.cache.getLast?.map Prod.snd).getD 0 + n) % 2 ^ 64)] })

def extendLoop : Nat → Ctx → Extended × Ctx
  | 0, s => (.covered, s)
  | k + 1, s =>
      match extendOne w s with
      | (.covered, s) => extendLoop k s
      | r => r

def ctxExtend (upTo : Nat) (s : Ctx) : Extended × Ctx :=
  if upTo < s.cache.length then (.covered, s)
  else if w.grows s.now = false then (.unreadable, s)
  else extendLoop w (upTo + 1 - s.cache.length) s

/-- The running count as a signed number of 64 bits. -/
def cumAt (cache : List (List UInt8 × Nat)) (h : Nat) : Int :=
  Int.bmod (((cache[h]?).map Prod.snd).getD 0 : Nat) (2 ^ 64)

def attempts : Nat → Nat → Ctx → Int × Ctx
  | 0, _, s => (-1, s)
  | k + 1, h, s =>
      if h < s.cache.length then
        let m := ctxMatches w s h
        if m.1 then (cumAt m.2.cache h, m.2) else attempts k h (ctxUnwind w h m.2)
      else
        let top := ctxMatches w s (s.cache.length - 1)
        if s.cache ≠ [] ∧ top.1 = false then attempts k h (ctxUnwind w (s.cache.length - 1) top.2)
        else
          let s := if s.cache ≠ [] then top.2 else s
          match ctxExtend w h s with
          | (.unreadable, s) => (-1, s)
          | (.unlinked, s) => attempts k h (ctxUnwind w (s.cache.length - 1) s)
          | (.covered, s) =>
              let m := ctxMatches w s h
              if m.1 then (cumAt m.2.cache h, m.2) else attempts k h (ctxUnwind w h m.2)

def ctxAt (h : Nat) (s : Ctx) : Int × Ctx := attempts w 4 h s

/-- A call some time after what came before, or the handles opened anew. -/
inductive Request where
  | ask (wait h : Nat)
  | reopen

structure Answer where
  height : Nat
  value : Int
  /-- the moments of the call -/
  began : Nat
  ended : Nat

/-- The answers to a sequence of requests. -/
def serve : Ctx → List Request → List Answer
  | _, [] => []
  | s, .reopen :: rest => serve { s with cache := [] } rest
  | s, .ask wait h :: rest =>
      let start := s.now + wait
      let r := ctxAt w h { s with now := start }
      ⟨h, r.1, start, r.2.now⟩ :: serve r.2 rest

end Code

/-! ## What the index and the files promise -/

def total (bs : List Blk) : Nat := (bs.map Blk.txCount).sum

def World.Seen (w : World) (b : Blk) : Prop :=
  (∃ now, b ∈ w.chain now) ∨ ∃ now file off, w.stored now file off = some b

def Blk.tag (b : Blk) : List UInt8 := ctxTagOf b.hash

/-- At each moment the index names a chain linked by hashes, with heights of 31 bits, and
different blocks have different tags. -/
structure World.Honest (w : World) : Prop where
  linked : ∀ now, (w.chain now).IsChain fun a b => b.prevHash = a.hash
  length_le : ∀ now, (w.chain now).length ≤ 2 ^ 31
  size_ge : ∀ now h place, w.getAt now h = some place → place.size = 0 ∨ 89 ≤ place.size
  tags : ∀ a b, w.Seen a → w.Seen b → a.tag = b.tag → a = b

/-- The answer is the count of a chain the index named at a moment of the call. -/
def Answer.Right (w : World) (a : Answer) : Prop :=
  ∃ now, a.began ≤ now ∧ now < a.ended ∧ a.height < (w.chain now).length ∧
    a.value = total ((w.chain now).take (a.height + 1))

/-! ## The cached heights are a chain -/

def Links (a b : Blk) : Prop := (b.bytes.drop 4).take 8 = a.tag

/-- The blocks `bs`, linked by their tags, are those the cache was filled from. -/
structure Cached (w : World) (cache : List (List UInt8 × Nat)) (bs : List Blk) : Prop where
  length_eq : cache.length = bs.length
  seen : ∀ b ∈ bs, w.Seen b
  linked : bs.IsChain Links
  entry : ∀ k b, bs[k]? = some b → cache[k]? = some (b.tag, total (bs.take (k + 1)) % 2 ^ 64)

def Ctx.Sound (w : World) (s : Ctx) : Prop := ∃ bs, Cached w s.cache bs

theorem links_of_prevHash {a b : Blk} (h : b.prevHash = a.hash) : Links a b := by
  rw [Links, Blk.tag, ctxTagOf, ← h, Blk.prevHash, List.take_take]
  rfl

theorem Cached.take {w : World} {cache : List (List UInt8 × Nat)} {bs : List Blk}
    (h : Cached w cache bs) (n : Nat) : Cached w (cache.take n) (bs.take n) := by
  refine ⟨by simp [h.length_eq], fun b hb => h.seen b (List.mem_of_mem_take hb),
    h.linked.take n, fun k b hk => ?_⟩
  obtain ⟨hlt, hk⟩ : k < n ∧ bs[k]? = some b := by
    simpa [List.getElem?_take] using hk
  rw [List.getElem?_take_of_lt hlt, h.entry k b hk, List.take_take]
  congr 5
  omega

theorem total_append (bs cs : List Blk) : total (bs ++ cs) = total bs + total cs := by
  simp [total]

theorem total_le (bs : List Blk) : total bs ≤ bs.length * (2 ^ 32 - 1) := by
  have := List.sum_le_card_nsmul (bs.map Blk.txCount) (2 ^ 32 - 1) ?_
  · simpa [total] using this
  · intro n hn
    obtain ⟨b, -, rfl⟩ := List.mem_map.mp hn
    have := b.count_le
    have := b.length_lt
    unfold Blk.txCount
    omega

theorem World.Honest.total_lt {w : World} (hw : w.Honest) (now n : Nat) :
    total ((w.chain now).take n) < 2 ^ 63 := by
  have hle := total_le ((w.chain now).take n)
  have hlen : ((w.chain now).take n).length ≤ 2 ^ 31 := by
    have := hw.length_le now
    simp
    omega
  omega

/-- Blocks that are named by one block are the same. -/
theorem World.Honest.below_unique {w : World} (hw : w.Honest) (a b c : Blk) (ha : w.Seen a)
    (hb : w.Seen b) (hac : Links a c) (hbc : Links b c) : a = b :=
  hw.tags a b ha hb (hac.symm.trans hbc)

/-- The count cached for a height whose tag the index has is the count of the indexed chain. -/
theorem cumAt_of_match {w : World} (hw : w.Honest) {s : Ctx} (hs : s.Sound w) {now h : Nat} {b : Blk}
    (hb : (w.chain now)[h]? = some b) (htag : (s.cache[h]?).map Prod.fst = some b.tag) :
    cumAt s.cache h = total ((w.chain now).take (h + 1)) := by
  obtain ⟨bs, hcached⟩ := hs
  obtain ⟨entry, hentry, hfirst⟩ := Option.map_eq_some_iff.mp htag
  obtain ⟨hlt, -⟩ := List.getElem?_eq_some_iff.mp hentry
  rw [hcached.length_eq] at hlt
  have hbs : bs[h]? = some bs[h] := List.getElem?_eq_getElem hlt
  have hsame := hcached.entry h _ hbs
  rw [hentry, Option.some.injEq] at hsame
  have hseen : ∀ c ∈ w.chain now, w.Seen c := fun c hc => .inl ⟨now, hc⟩
  have hblock : bs[h] = b := by
    apply hw.tags _ _ (hcached.seen _ (List.getElem_mem _)) (hseen _ (List.mem_of_getElem? hb))
    rw [← hfirst, hsame]
  have hlinked : (w.chain now).IsChain Links := (hw.linked now).imp fun _ _ => links_of_prevHash
  have htake := take_eq_of_top hw.below_unique hcached.linked hlinked hcached.seen hseen (hblock ▸ hbs) hb
  have hbound := hw.total_lt now (h + 1)
  have hcum : ((s.cache[h]?).map Prod.snd).getD 0 = total ((w.chain now).take (h + 1)) := by
    simp only [hentry, hsame, htake, Option.map_some, Option.getD_some]
    exact Nat.mod_eq_of_lt (by omega)
  unfold cumAt
  generalize total ((w.chain now).take (h + 1)) = n at *
  rw [hcum]
  exact Int.bmod_eq_of_le (by omega) (by omega)

/-! ## Every step keeps the chain -/

/-- The state later in the call, with a sound cache. -/
structure After (w : World) (s s' : Ctx) : Prop where
  sound : s'.Sound w
  later : s.now ≤ s'.now

theorem After.trans {w : World} {s s' s'' : Ctx} (h : After w s s') (h' : After w s' s'') :
    After w s s'' :=
  ⟨h'.sound, h.later.trans h'.later⟩

section Steps

variable {w : World}

theorem after_ctxMatches {s : Ctx} (hs : s.Sound w) (h : Nat) : After w s (ctxMatches w s h).2 := by
  unfold ctxMatches
  split
  · exact ⟨hs, le_rfl⟩
  · exact ⟨hs, Nat.le_succ _⟩

/-- A match is found at the moment of the read. -/
theorem ctxMatches_true {s : Ctx} {h : Nat} (hm : (ctxMatches w s h).1 = true) :
    (ctxMatches w s h).2 = { s with now := s.now + 1 } ∧
      ∃ b, (w.chain s.now)[h]? = some b ∧ (s.cache[h]?).map Prod.fst = some b.tag := by
  unfold ctxMatches at hm ⊢
  cases hentry : s.cache[h]? with
  | none => simp [hentry] at hm
  | some entry =>
      simp only [hentry] at hm ⊢
      refine ⟨trivial, ?_⟩
      cases hrec : w.readIdxRec s.now h with
      | none => simp [hrec] at hm
      | some hash =>
          simp only [hrec, Bool.and_eq_true, decide_eq_true_eq] at hm
          unfold World.readIdxRec at hrec
          split at hrec
          · obtain ⟨b, hb, rfl⟩ := Option.map_eq_some_iff.mp hrec
            exact ⟨b, hb, by simp [Blk.tag, hm.2]⟩
          · cases hrec

/-- The value a match lets out is right. -/
theorem right_of_match (hw : w.Honest) {s : Ctx} (hs : s.Sound w) {h began : Nat}
    (hbegan : began ≤ s.now) (hm : (ctxMatches w s h).1 = true) :
    Answer.Right w ⟨h, cumAt (ctxMatches w s h).2.cache h, began, (ctxMatches w s h).2.now⟩ := by
  obtain ⟨hnext, b, hb, htag⟩ := ctxMatches_true hm
  rw [hnext]
  obtain ⟨hlt, -⟩ := List.getElem?_eq_some_iff.mp hb
  have hcum := cumAt_of_match hw hs hb htag
  refine ⟨s.now, hbegan, Nat.lt_succ_self _, hlt, ?_⟩
  simpa only using hcum

theorem Ctx.Sound.cut {s : Ctx} (hs : s.Sound w) (n : Nat) :
    After w s { s with cache := s.cache.take n } := by
  obtain ⟨bs, hcached⟩ := hs
  exact ⟨⟨bs.take n, hcached.take n⟩, le_rfl⟩

theorem after_unwindLoop {k lo hi keep : Nat} {s : Ctx} (hs : s.Sound w) :
    After w s (unwindLoop w k lo hi keep s) := by
  induction k generalizing lo hi keep s with
  | zero => exact hs.cut keep
  | succ k ih =>
      rw [unwindLoop]
      split
      · have hmid := after_ctxMatches hs (lo + (hi - 1 - lo) / 2)
        dsimp only
        split
        · exact hmid.trans (ih hmid.sound)
        · exact hmid.trans (ih hmid.sound)
      · exact hs.cut keep

theorem after_ctxUnwind {s : Ctx} (hs : s.Sound w) (bad : Nat) : After w s (ctxUnwind w bad s) :=
  after_unwindLoop hs

/-- The prefix read is that of a block. -/
theorem readBlockPrefix_eq_some (hw : w.Honest) {now h : Nat} {pre : List UInt8}
    (hread : w.readBlockPrefix now h = some pre) : ∃ b, w.Seen b ∧ pre = b.bytes.take 89 := by
  unfold World.readBlockPrefix at hread
  cases hplace : w.getAt now h with
  | none => simp [hplace] at hread
  | some place =>
      simp only [hplace] at hread
      split at hread
      · cases hread
      · next hsize =>
          have hlong := (hw.size_ge now h place hplace).resolve_left hsize
          obtain ⟨b, hb, rfl⟩ := Option.map_eq_some_iff.mp hread
          refine ⟨b, .inr ⟨_, _, _, hb⟩, ?_⟩
          simp [Nat.min_eq_left hlong, Nat.sub_eq_zero_of_le hlong]

/-- Nine bytes hold any count. -/
theorem readVarint_nine {bytes : List UInt8} {n : Nat} {rest : List UInt8}
    (h : readVarint false false (bytes.take 9) = some (n, rest)) :
    ∃ rest', readVarint false false bytes = some (n, rest') := by
  obtain ⟨used, hsplit, htakes⟩ := settled_readVarint false false h
  refine ⟨rest ++ bytes.drop 9, ?_⟩
  rw [← htakes, ← List.append_assoc, ← hsplit, List.take_append_drop]

theorem countOf_eq {b : Blk} {n : Nat} {rest : List UInt8}
    (h : readVarint false false ((b.bytes.take 89).drop 80) = some (n, rest)) : b.txCount = n := by
  rw [List.drop_take] at h
  obtain ⟨rest', h⟩ := readVarint_nine h
  rw [Blk.txCount, countOf, h]
  rfl

/-- One more block at the top. -/
theorem Cached.snoc {cache : List (List UInt8 × Nat)} {bs : List Blk} (hc : Cached w cache bs) {b : Blk}
    (hseen : w.Seen b) (hlink : ∀ top ∈ bs.getLast?, Links top b) :
    Cached w (cache ++ [(b.tag, ((cache.getLast?.map Prod.snd).getD 0 + b.txCount) % 2 ^ 64)])
      (bs ++ [b]) := by
  have hlast : ((cache.getLast?.map Prod.snd).getD 0 + b.txCount) % 2 ^ 64 =
      total (bs ++ [b]) % 2 ^ 64 := by
    rw [total_append, List.getLast?_eq_getElem?, hc.length_eq]
    rcases Nat.eq_zero_or_pos bs.length with hzero | hpos
    · obtain rfl := List.length_eq_zero_iff.mp hzero
      have hnil : cache = [] := List.length_eq_zero_iff.mp (by simp [hc.length_eq])
      simp [hnil, total]
    · have htop : bs[bs.length - 1]? = some bs[bs.length - 1] := List.getElem?_eq_getElem _
      rw [hc.entry _ _ htop, Nat.sub_add_cancel hpos, List.take_length]
      simp [total]
  refine ⟨by simp [hc.length_eq], ?_, ?_, ?_⟩
  · intro c hmem
    rcases List.mem_append.mp hmem with hold | hnew
    · exact hc.seen c hold
    · obtain rfl := List.mem_singleton.mp hnew
      exact hseen
  · apply List.IsChain.append hc.linked (List.isChain_singleton b)
    intro top htop c hnew
    obtain rfl : b = c := by simpa using hnew
    exact hlink top htop
  · intro k c hk
    rcases Nat.lt_trichotomy k bs.length with hlt | rfl | hgt
    · rw [List.getElem?_append_left hlt] at hk
      rw [List.getElem?_append_left (by rw [hc.length_eq]; exact hlt), hc.entry k c hk,
        List.take_append_of_le_length hlt]
    · obtain rfl : b = c := by simpa using hk
      have htake : (bs ++ [b]).take (bs.length + 1) = bs ++ [b] := List.take_of_length_le (by simp)
      rw [hlast, htake, ← hc.length_eq, List.getElem?_concat_length]
    · rw [List.getElem?_eq_none (by simp; omega)] at hk
      cases hk

theorem after_extendOne (hw : w.Honest) {s : Ctx} (hs : s.Sound w) : After w s (extendOne w s).2 := by
  have hwait : After w s { s with now := s.now + 2 } := ⟨hs, Nat.le_add_right _ _⟩
  unfold extendOne
  dsimp only
  cases hread : w.readBlockPrefix s.now s.cache.length with
  | none => exact hwait
  | some pre =>
      obtain ⟨b, hseen, rfl⟩ := readBlockPrefix_eq_some hw hread
      cases hcount : readVarint false false ((b.bytes.take 89).drop 80) with
      | none => simpa only [hcount] using hwait
      | some p =>
          obtain ⟨n, rest⟩ := p
          obtain rfl := countOf_eq hcount
          simp only [hcount]
          split
          · exact hwait
          · next hlinks =>
              obtain ⟨bs, hcached⟩ := hs
              refine ⟨⟨bs ++ [b], ?_⟩, Nat.le_add_right _ _⟩
              have hheader : (b.bytes.take 89).take 80 = b.header := by
                rw [List.take_take]
                rfl
              rw [hheader]
              apply hcached.snoc hseen
              intro top htop
              -- the tag below is the one the header names
              have htag : (s.cache.getLast?).map Prod.fst = some top.tag := by
                rw [List.getLast?_eq_getElem?] at htop ⊢
                rw [hcached.length_eq, hcached.entry _ _ htop]
                rfl
              obtain ⟨entry, hentry, hfirst⟩ := Option.map_eq_some_iff.mp htag
              simp only [hentry, Option.any_some, decide_eq_true_eq, not_not] at hlinks
              rw [Links, ← hfirst, ← hlinks, List.drop_take, List.take_take]
              rfl

theorem after_extendLoop (hw : w.Honest) {k : Nat} {s : Ctx} (hs : s.Sound w) :
    After w s (extendLoop w k s).2 := by
  induction k generalizing s with
  | zero => exact ⟨hs, le_rfl⟩
  | succ k ih =>
      have hone := after_extendOne hw hs
      rw [extendLoop]
      rcases hr : extendOne w s with ⟨r, s'⟩
      rw [hr] at hone
      cases r with
      | covered => exact hone.trans (ih hone.sound)
      | unreadable => exact hone
      | unlinked => exact hone

theorem after_ctxExtend (hw : w.Honest) {s : Ctx} (hs : s.Sound w) (upTo : Nat) :
    After w s (ctxExtend w upTo s).2 := by
  unfold ctxExtend
  split
  · exact ⟨hs, le_rfl⟩
  split
  · exact ⟨hs, le_rfl⟩
  · exact after_extendLoop hw hs

/-- What a call leaves: a sound cache, and an answer that is right or unknown. -/
structure Served (w : World) (h began : Nat) (s : Ctx) (r : Int × Ctx) : Prop where
  after : After w s r.2
  right : r.1 ≠ -1 → Answer.Right w ⟨h, r.1, began, r.2.now⟩

theorem Served.later {h began : Nat} {s s' : Ctx} {r : Int × Ctx} (hss : After w s s')
    (hr : Served w h began s' r) : Served w h began s r :=
  ⟨hss.trans hr.after, hr.right⟩

theorem served_match (hw : w.Honest) {s : Ctx} (hs : s.Sound w) {h began : Nat} (hbegan : began ≤ s.now)
    {next : Int × Ctx} (hnext : Served w h began (ctxMatches w s h).2 next) :
    Served w h began s
      (if (ctxMatches w s h).1 then (cumAt (ctxMatches w s h).2.cache h, (ctxMatches w s h).2) else next) := by
  split
  · next hm =>
      refine ⟨after_ctxMatches hs h, fun _ => ?_⟩
      simpa only using right_of_match hw hs hbegan hm
  · exact hnext.later (after_ctxMatches hs h)

theorem served_attempts (hw : w.Honest) {k h began : Nat} {s : Ctx} (hs : s.Sound w)
    (hbegan : began ≤ s.now) : Served w h began s (attempts w k h s) := by
  induction k generalizing s with
  | zero => exact ⟨⟨hs, le_rfl⟩, fun h => absurd rfl h⟩
  | succ k ih =>
      -- what is left to show once the cache is unwound
      have hagain : ∀ {s' : Ctx} (bad : Nat), After w s s' →
          Served w h began s' (attempts w k h (ctxUnwind w bad s')) := by
        intro s' bad hafter
        have hunwind := after_ctxUnwind hafter.sound bad
        exact (ih hunwind.sound (hbegan.trans (hafter.later.trans hunwind.later))).later hunwind
      rw [attempts]
      split
      · exact served_match hw hs hbegan (hagain h (after_ctxMatches hs h))
      · have htop := after_ctxMatches hs (s.cache.length - 1)
        dsimp only
        split
        · exact (hagain _ htop).later htop
        · have hstart : After w s
              (if s.cache ≠ [] then (ctxMatches w s (s.cache.length - 1)).2 else s) := by
            split
            · exact htop
            · exact ⟨hs, le_rfl⟩
          generalize (if s.cache ≠ [] then (ctxMatches w s (s.cache.length - 1)).2 else s) = s1 at *
          have hext := hstart.trans (after_ctxExtend hw hstart.sound h)
          rcases hr : ctxExtend w h s1 with ⟨r, s2⟩
          rw [hr] at hext
          cases r with
          | unreadable => exact ⟨hext, fun h => absurd rfl h⟩
          | unlinked => exact (hagain _ hext).later hext
          | covered =>
              have hmatch := after_ctxMatches hext.sound h
              exact (served_match hw hext.sound (hbegan.trans hext.later)
                (hagain h (hext.trans hmatch))).later hext

end Steps

theorem sound_empty (w : World) (now : Nat) : Ctx.Sound w ⟨[], now⟩ :=
  ⟨[], ⟨rfl, by simp, List.isChain_nil, by simp⟩⟩

theorem serve_right {w : World} (hw : w.Honest) {s : Ctx} (hs : s.Sound w) (requests : List Request) :
    ∀ a ∈ serve w s requests, a.value ≠ -1 → a.Right w := by
  induction requests generalizing s with
  | nil => simp [serve]
  | cons r rest ih =>
      cases r with
      | reopen => exact ih (sound_empty w s.now)
      | ask wait h =>
          have hserved : Served w h (s.now + wait) { s with now := s.now + wait }
              (ctxAt w h { s with now := s.now + wait }) := served_attempts hw hs le_rfl
          intro a ha
          rcases List.mem_cons.mp ha with rfl | hlater
          · exact hserved.right
          · exact ih hserved.after.sound a hlater

/-- A block of one transaction. -/
def soleBlock : Blk :=
  ⟨List.replicate 80 0 ++ 1 :: List.replicate 60 0, by simp, by simp, by decide +kernel⟩

/-- An archive of this block alone, which is not there yet at the first moment. -/
def soleWorld : World where
  chain now := if now = 0 then [] else [soleBlock]
  readable _ _ := true
  getAt _ _ := some ⟨0, 0, 141⟩
  stored _ _ _ := some soleBlock
  grows _ := true

theorem soleWorld_seen {b : Blk} (h : soleWorld.Seen b) : b = soleBlock := by
  rcases h with ⟨now, hmem⟩ | ⟨now, file, off, hstored⟩
  · unfold soleWorld at hmem
    dsimp only at hmem
    split at hmem
    · cases hmem
    · exact List.mem_singleton.mp hmem
  · exact (Option.some.inj hstored).symm

theorem soleWorld_honest : soleWorld.Honest where
  linked now := by
    unfold soleWorld
    dsimp only
    split
    · exact List.isChain_nil
    · exact List.isChain_singleton _
  length_le now := by
    unfold soleWorld
    dsimp only
    split <;> simp
  size_ge now h place hplace := by
    obtain rfl := Option.some.inj hplace
    exact .inr (by decide)
  tags a b ha hb _ := by rw [soleWorld_seen ha, soleWorld_seen hb]

end BitcoinMachineCode.Chain.TxStats
