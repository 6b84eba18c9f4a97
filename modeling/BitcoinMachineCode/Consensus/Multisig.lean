import BitcoinMachineCode.Foundation.Digits
import BitcoinMachineCode.Foundation.OrderedMatch
import Mathlib.Data.List.GetD

/-!
# OP_CHECKMULTISIG

`interp_checkmultisig` walks the keys from the top of the stack down and spends a signature
on the first key it passes with.  It leaves true exactly when the signatures can be given
keys in order, one each.
-/

namespace BitcoinMachineCode.Consensus

open BitcoinMachineCode.Foundation

/-! ## The state of a script -/

def maxScriptElementSize : Nat := 520
def maxOpsPerScript : Nat := 201
def maxStackSize : Nat := 1000
def maxScriptSize : Nat := 10000
def maxPubkeysPerMultisig : Nat := 20

inductive SigVersion where
  | base
  | witnessV0
  | tapscript
  deriving DecidableEq, Repr

inductive ScriptErr where
  | invalidStackOperation
  | scriptnum
  | opCount
  | pubkeyCount
  | sigCount
  | sigFindanddelete
  | sigDer
  | sigHighS
  | sigHashtype
  | pubkeytype
  | sigNullfail
  | sigNulldummy
  deriving DecidableEq, Repr

/-- The flags that `interp_checkmultisig` and its checks of encodings read. -/
structure ScriptFlags where
  strictenc : Bool
  dersig : Bool
  lowS : Bool
  nulldummy : Bool
  minimaldata : Bool
  nullfail : Bool
  constScriptcode : Bool
  deriving DecidableEq, Repr

/-- The stack has its bottom first, and `code` is what follows the last code separator. -/
structure ScriptState where
  stack : List (List UInt8)
  stack_le : stack.length ≤ maxStackSize
  elem_le : ∀ e ∈ stack, e.length ≤ maxScriptElementSize
  flags : ScriptFlags
  sigversion : SigVersion
  opCount : Nat
  code : List UInt8
  code_le : code.length ≤ maxScriptSize
  checksig : Option (List UInt8 → List UInt8 → List UInt8 → Bool)

/-- The element `k` from the top, the top being 1. -/
def ScriptState.stacktop (st : ScriptState) (k : Nat) : List UInt8 :=
  st.stack.getD (st.stack.length - k) []

def byteAt (bs : List UInt8) (i : Nat) : Nat := (bs.getD i 0).toNat

/-! ## Counts -/

/-- No byte is spent on a sign or on a zero that the value does not need. -/
def minimalNum (data : List UInt8) : Bool :=
  data.length = 0 ∨ byteAt data (data.length - 1) % 0x80 ≠ 0 ∨
    (data.length ≠ 1 ∧ 0x80 ≤ byteAt data (data.length - 2))

def scriptnumDecode (minimal : Bool) (maxsize : Nat) (data : List UInt8) : Option Int :=
  if maxsize < data.length ∨ (minimal ∧ ¬ minimalNum data) then none
  else if data.length ≠ 0 ∧ 0x80 ≤ byteAt data (data.length - 1) then
    some (-((leVal data : Int) - 0x80 * 256 ^ (data.length - 1)))
  else some (leVal data)

/-! ## Encodings -/

def derSigStrict (sig : List UInt8) : Bool :=
  let lenR := byteAt sig 3
  let lenS := byteAt sig (5 + lenR)
  9 ≤ sig.length ∧ sig.length ≤ 73 ∧ byteAt sig 0 = 0x30 ∧ byteAt sig 1 = sig.length - 3 ∧
    5 + lenR < sig.length ∧ lenR + lenS + 7 = sig.length ∧
    byteAt sig 2 = 0x02 ∧ lenR ≠ 0 ∧ byteAt sig 4 < 0x80 ∧
    (1 < lenR → byteAt sig 4 = 0 → 0x80 ≤ byteAt sig 5) ∧
    byteAt sig (lenR + 4) = 0x02 ∧ lenS ≠ 0 ∧ byteAt sig (lenR + 6) < 0x80 ∧
    (1 < lenS → byteAt sig (lenR + 6) = 0 → 0x80 ≤ byteAt sig (lenR + 7))

def orderN : Nat := 0xfffffffffffffffffffffffffffffffebaaedce6af48a03bbfd25e8cd0364141
def halfOrderN : Nat := 0x7fffffffffffffffffffffffffffffff5d576e7357a4501ddfe92f46681b20a0

/-- An S of the order or more is not reported: it makes a signature that fails. -/
def sigHighS (sig : List UInt8) : Bool :=
  let lenR := byteAt sig 3
  let lenS := byteAt sig (5 + lenR)
  let start := if lenS = 33 then 7 + lenR else 6 + lenR
  let s := beVal ((sig.drop start).take 32)
  32 ≤ lenS ∧ s < orderN ∧ halfOrderN < s

def interpSigEncodingOk (st : ScriptState) (sig : List UInt8) : Except ScriptErr Unit :=
  if st.sigversion = .tapscript then .ok ()
  else if ¬ (st.flags.dersig ∨ st.flags.lowS ∨ st.flags.strictenc) then .ok ()
  else if sig.length = 0 then .ok ()
  else if ¬ derSigStrict sig then .error .sigDer
  else if st.flags.lowS ∧ sigHighS sig then .error .sigHighS
  else if st.flags.strictenc ∧
      (byteAt sig (sig.length - 1) % 0x80 < 1 ∨ 3 < byteAt sig (sig.length - 1) % 0x80) then
    .error .sigHashtype
  else .ok ()

def interpPubkeyEncodingOk (st : ScriptState) (pub : List UInt8) : Bool :=
  !st.flags.strictenc ||
    (if pub.length = 33 then byteAt pub 0 = 2 ∨ byteAt pub 0 = 3
    else pub.length = 65 ∧ byteAt pub 0 = 4)

/-! ## The script code -/

/-- The length of the opcode at the front with what it pushes, 0 where it is cut short. -/
def scriptOpLen (code : List UInt8) : Nat :=
  let op := byteAt code 0
  let unit :=
    if code.length = 0 then 0
    else if op < 0x4c then 1 + op
    else if op = 0x4c then if code.length < 2 then 0 else leVal ((code.drop 1).take 1) + 2
    else if op = 0x4d then if code.length < 3 then 0 else leVal ((code.drop 1).take 2) + 3
    else if op = 0x4e then if code.length < 5 then 0 else leVal ((code.drop 1).take 4) + 5
    else 1
  if code.length < unit then 0 else unit

/-- Every pass of the loop takes a byte or more, so the length is fuel enough. -/
def findAndDeleteFrom (needle : List UInt8) : Nat → List UInt8 → List UInt8
  | 0, src => src
  | fuel + 1, src =>
      if needle ≠ [] ∧ needle.isPrefixOf src then
        findAndDeleteFrom needle fuel (src.drop needle.length)
      else if scriptOpLen src = 0 then src
      else src.take (scriptOpLen src) ++ findAndDeleteFrom needle fuel (src.drop (scriptOpLen src))

def scriptFindAndDelete (src needle : List UInt8) : List UInt8 :=
  findAndDeleteFrom needle src.length src

def scriptPushEncode (data : List UInt8) : List UInt8 :=
  if data.length < 0x4c then UInt8.ofNat data.length :: data
  else if data.length ≤ 0xff then 0x4c :: UInt8.ofNat data.length :: data
  else if data.length ≤ 0xffff then 0x4d :: (leBytes 2 data.length ++ data)
  else 0x4e :: (leBytes 4 data.length ++ data)

/-- Every signature on the stack is stripped before the first check runs. -/
def stripSigs (flags : ScriptFlags) : List (List UInt8) → List UInt8 → Except ScriptErr (List UInt8)
  | [], code => .ok code
  | sig :: sigs, code =>
      let stripped := scriptFindAndDelete code (scriptPushEncode sig)
      if stripped.length < code.length ∧ flags.constScriptcode then .error .sigFindanddelete
      else stripSigs flags sigs stripped

def multisigCode (st : ScriptState) (sigs : List (List UInt8)) : Except ScriptErr (List UInt8) :=
  if st.sigversion = .base then stripSigs st.flags sigs st.code else .ok st.code

/-! ## The matching loop -/

/-- What the callback says of a signature and a key; without a callback nothing passes. -/
def ScriptState.verdict (st : ScriptState) (code sig key : List UInt8) : Bool :=
  match st.checksig with
  | none => false
  | some checksigFn => checksigFn sig key code

def checkPair (st : ScriptState) (code sig key : List UInt8) : Except ScriptErr Bool :=
  match interpSigEncodingOk st sig with
  | .error e => .error e
  | .ok () =>
      if interpPubkeyEncodingOk st key then .ok (st.verdict code sig key) else .error .pubkeytype

inductive CmsExit where
  | ended (remaining : Nat)
  | fail
  deriving DecidableEq, Repr

/-- The loop with `left` keys to go.  With `early` it gives up when more signatures than
keys remain. -/
def cmsLoop (early : Bool) (check : List UInt8 → List UInt8 → Except ScriptErr Bool)
    (sigs keys : List (List UInt8)) : Nat → Nat → Nat → Nat → Except ScriptErr CmsExit
  | 0, _, _, remaining => .ok (.ended remaining)
  | left + 1, isig, ikey, remaining =>
      if remaining = 0 then .ok (.ended 0)
      else
        match check (sigs.getD isig []) (keys.getD ikey []) with
        | .error e => .error e
        | .ok hit =>
            let isig := if hit then isig + 1 else isig
            let remaining := if hit then remaining - 1 else remaining
            if early ∧ left < remaining then .ok .fail
            else cmsLoop early check sigs keys left isig (ikey + 1) remaining

/-! ## The opcode -/

/-- The number of keys and of signatures, read and checked in the order of the source. -/
def readCounts (st : ScriptState) : Except ScriptErr (Nat × Nat) :=
  let sp := st.stack.length
  if sp < 1 then .error .invalidStackOperation
  else
    match scriptnumDecode st.flags.minimaldata 4 (st.stacktop 1) with
    | none => .error .scriptnum
    | some n =>
        if n < 0 ∨ maxPubkeysPerMultisig < n then .error .pubkeyCount
        else if maxOpsPerScript < st.opCount + n.toNat then .error .opCount
        else if sp < n.toNat + 2 then .error .invalidStackOperation
        else
          match scriptnumDecode st.flags.minimaldata 4 (st.stacktop (n.toNat + 2)) with
          | none => .error .scriptnum
          | some m =>
              if m < 0 ∨ n < m then .error .sigCount
              else if sp < n.toNat + m.toNat + 3 then .error .invalidStackOperation
              else .ok (n.toNat, m.toNat)

def pushedBool (b : Bool) : List UInt8 := if b then [1] else []

theorem length_pushedBool_le (b : Bool) : (pushedBool b).length ≤ maxScriptElementSize := by
  cases b <;> decide

/-- The operands are popped, at least three with the dummy, and the answer is pushed. -/
def ScriptState.leave (st : ScriptState) (nKeys nSigs : Nat) (b : Bool) : ScriptState where
  stack := st.stack.take (st.stack.length - (nKeys + nSigs + 3)) ++ [pushedBool b]
  stack_le := by
    have := st.stack_le
    simp only [List.length_append, List.length_take, List.length_singleton, maxStackSize] at this ⊢
    omega
  elem_le := by
    intro e he
    rcases List.mem_append.mp he with he | he
    · exact st.elem_le e (List.mem_of_mem_take he)
    · rw [List.mem_singleton.mp he]
      exact length_pushedBool_le b
  flags := st.flags
  sigversion := st.sigversion
  opCount := st.opCount + nKeys
  code := st.code
  code_le := st.code_le
  checksig := st.checksig

/-- The loop's errors come first, then NULLFAIL, then NULLDUMMY; a loop that ran to its end
looks at the dummy before the signatures. -/
def multisigFinish (st : ScriptState) (nKeys nSigs : Nat) (sigs : List (List UInt8)) :
    CmsExit → Except ScriptErr ScriptState
  | exit =>
      let dummyBad := st.flags.nulldummy ∧ st.stacktop (nKeys + nSigs + 3) ≠ []
      let failed : Except ScriptErr ScriptState :=
        if st.flags.nullfail ∧ ∃ sig ∈ sigs, sig ≠ [] then .error .sigNullfail
        else if dummyBad then .error .sigNulldummy
        else .ok (st.leave nKeys nSigs false)
      match exit with
      | .fail => failed
      | .ended remaining =>
          if dummyBad then .error .sigNulldummy
          else if remaining = 0 then .ok (st.leave nKeys nSigs true)
          else failed

def multisigWith (early : Bool) (st : ScriptState) : Except ScriptErr ScriptState :=
  match readCounts st with
  | .error e => .error e
  | .ok (nKeys, nSigs) =>
      let keys := (List.range nKeys).map fun j => st.stacktop (2 + j)
      let sigs := (List.range nSigs).map fun j => st.stacktop (nKeys + 3 + j)
      match multisigCode st sigs with
      | .error e => .error e
      | .ok code =>
          match cmsLoop early (checkPair st code) sigs keys nKeys 0 0 nSigs with
          | .error e => .error e
          | .ok exit => multisigFinish st nKeys nSigs sigs exit

def interpCheckmultisig (st : ScriptState) : Except ScriptErr ScriptState := multisigWith true st

/-! ## The buffers hold what is written to them -/

theorem length_findAndDeleteFrom_le (needle : List UInt8) (fuel : Nat) (src : List UInt8) :
    (findAndDeleteFrom needle fuel src).length ≤ src.length := by
  induction fuel generalizing src with
  | zero => exact le_rfl
  | succ fuel ih =>
      unfold findAndDeleteFrom
      split
      · exact (ih _).trans (by rw [List.length_drop]; omega)
      · split
        · exact le_rfl
        · rw [List.length_append, List.length_take]
          have := ih (src.drop (scriptOpLen src))
          rw [List.length_drop] at this
          omega

theorem length_scriptFindAndDelete_le (src needle : List UInt8) :
    (scriptFindAndDelete src needle).length ≤ src.length :=
  length_findAndDeleteFrom_le needle _ src

/-- `cms_needle` holds 600 bytes. -/
theorem length_scriptPushEncode_le {data : List UInt8} (h : data.length ≤ maxScriptElementSize) :
    (scriptPushEncode data).length ≤ 600 := by
  unfold maxScriptElementSize at h
  unfold scriptPushEncode
  split
  · simp only [List.length_cons]
    omega
  split
  · simp only [List.length_cons]
    omega
  split
  · simp only [List.length_cons, List.length_append, length_leBytes]
    omega
  · omega

/-- `cms_scstrip0` and `cms_scstrip1` hold 10008 bytes. -/
theorem length_stripSigs_le {flags : ScriptFlags} {sigs : List (List UInt8)} {code out : List UInt8}
    (h : stripSigs flags sigs code = .ok out) : out.length ≤ code.length := by
  induction sigs generalizing code with
  | nil =>
      cases h
      exact le_rfl
  | cons sig sigs ih =>
      unfold stripSigs at h
      simp only at h
      split at h
      · cases h
      · exact (ih h).trans (length_scriptFindAndDelete_le code _)

/-! ## What the loop finds -/

/-- The loop ends with every signature spent exactly when the signatures and the keys it has
not reached can be matched, whether or not it gives up early. -/
theorem cmsLoop_spec {early : Bool} {check : List UInt8 → List UInt8 → Except ScriptErr Bool}
    {sigs keys : List (List UInt8)} {passes : List UInt8 → List UInt8 → Bool}
    (hcheck : ∀ sig ∈ sigs, ∀ key ∈ keys, check sig key = .ok (passes sig key))
    {left isig ikey remaining : Nat} (hleft : ikey + left = keys.length)
    (hremaining : isig + remaining = sigs.length) :
    ∃ exit, cmsLoop early check sigs keys left isig ikey remaining = .ok exit ∧
      (exit = .ended 0 ↔ List.SublistForall₂ (fun sig key => passes sig key = true)
        (sigs.drop isig) (keys.drop ikey)) := by
  induction left generalizing isig ikey remaining with
  | zero =>
      refine ⟨_, rfl, ?_⟩
      rw [List.drop_eq_nil_of_le (show keys.length ≤ ikey by omega)]
      constructor
      · intro hended
        cases hended
        rw [List.drop_eq_nil_of_le (show sigs.length ≤ isig by omega)]
        exact .nil
      · intro hmatch
        have hlen := SublistForall₂.length_le hmatch
        rw [List.length_drop, List.length_nil] at hlen
        rw [show remaining = 0 by omega]
  | succ left ih =>
      unfold cmsLoop
      by_cases hzero : remaining = 0
      · refine ⟨.ended 0, if_pos hzero, iff_of_true rfl ?_⟩
        rw [List.drop_eq_nil_of_le (show sigs.length ≤ isig by omega)]
        exact .nil
      -- what giving up or going on comes to, once this key has been tried
      have hrest : ∀ isig' remaining', isig' + remaining' = sigs.length →
          ∃ exit, (if early ∧ left < remaining' then .ok .fail
            else cmsLoop early check sigs keys left isig' (ikey + 1) remaining') = .ok exit ∧
            (exit = .ended 0 ↔ List.SublistForall₂ (fun sig key => passes sig key = true)
              (sigs.drop isig') (keys.drop (ikey + 1))) := by
        intro isig' remaining' hremaining'
        split
        · next hgive =>
            refine ⟨.fail, rfl, iff_of_false (by simp) fun hmatch => ?_⟩
            have hlen := SublistForall₂.length_le hmatch
            rw [List.length_drop, List.length_drop] at hlen
            omega
        · exact ih (by omega) hremaining'
      have hisig : isig < sigs.length := by omega
      have hikey : ikey < keys.length := by omega
      rw [if_neg hzero, List.getD_eq_getElem _ _ hisig, List.getD_eq_getElem _ _ hikey,
        hcheck _ (List.getElem_mem hisig) _ (List.getElem_mem hikey),
        List.drop_eq_getElem_cons hisig, List.drop_eq_getElem_cons hikey]
      simp only
      cases hpass : passes sigs[isig] keys[ikey] with
      | true =>
          -- the signature may as well be spent here
          rw [@sublistForall₂_cons_iff _ _ (fun sig key => passes sig key = true) _ _ _ _ hpass]
          exact hrest _ _ (by simp only [if_true]; omega)
      | false =>
          rw [@sublistForall₂_cons_iff_of_not _ _ (fun sig key => passes sig key = true) _ _ _ _
            (by rw [hpass]; exact Bool.false_ne_true), ← List.drop_eq_getElem_cons hisig]
          exact hrest _ _ hremaining

/-! ## The operands on the stack -/

theorem ScriptState.stacktop_eq {st : ScriptState} (below above : List (List UInt8))
    {e : List UInt8} (h : st.stack = below ++ e :: above) : st.stacktop (above.length + 1) = e := by
  unfold ScriptState.stacktop
  rw [h, List.length_append, List.length_cons, Nat.add_sub_cancel,
    List.getD_eq_getElem?_getD, List.getElem?_append_right le_rfl, Nat.sub_self]
  rfl

/-- A stretch of the stack, collected from its top down. -/
theorem ScriptState.map_stacktop {st : ScriptState} (below above : List (List UInt8))
    {mid : List (List UInt8)} (h : st.stack = below ++ (mid ++ above)) {k : Nat} (hk : k = above.length + 1) :
    ((List.range mid.length).map fun j => st.stacktop (k + j)) = mid.reverse := by
  refine List.ext_getElem (by simp) fun j hj hj' => ?_
  rw [List.getElem_map, List.getElem_range, List.getElem_reverse]
  rw [List.length_reverse] at hj'
  have hsplit : mid = mid.take (mid.length - 1 - j) ++
      mid[mid.length - 1 - j] :: mid.drop (mid.length - 1 - j + 1) := by simp
  have hstack : st.stack = (below ++ mid.take (mid.length - 1 - j)) ++
      mid[mid.length - 1 - j] :: (mid.drop (mid.length - 1 - j + 1) ++ above) := by
    rw [List.append_assoc, ← List.cons_append, ← List.append_assoc (mid.take _), ← hsplit, h]
  rw [← ScriptState.stacktop_eq _ _ hstack]
  congr 1
  rw [List.length_append, List.length_drop]
  omega

/-- Signatures and keys under their counts, over the dummy, as the opcode's other rules
want them. -/
structure OnStack (st : ScriptState) (rest : List (List UInt8)) (dummy : List UInt8)
    (sigs : List (List UInt8)) (m : List UInt8) (keys : List (List UInt8)) (n : List UInt8) :
    Prop where
  stack_eq : st.stack = rest ++ dummy :: (sigs ++ m :: (keys ++ [n]))
  nKeys : scriptnumDecode st.flags.minimaldata 4 n = some (keys.length : Int)
  nSigs : scriptnumDecode st.flags.minimaldata 4 m = some (sigs.length : Int)
  sigs_le : sigs.length ≤ keys.length
  keys_le : keys.length ≤ maxPubkeysPerMultisig
  ops_le : st.opCount + keys.length ≤ maxOpsPerScript
  dummy_ok : st.flags.nulldummy = true → dummy = []

/-- The encoding rules accept them, and the script code they are checked against is `code`. -/
structure EncodingsOk (st : ScriptState) (sigs keys : List (List UInt8)) (code : List UInt8) :
    Prop where
  code_eq : multisigCode st sigs.reverse = .ok code
  sig : ∀ sig ∈ sigs, interpSigEncodingOk st sig = .ok ()
  key : ∀ key ∈ keys, interpPubkeyEncodingOk st key = true

section Called

variable {st : ScriptState} {rest : List (List UInt8)} {dummy m n code : List UInt8}
  {sigs keys : List (List UInt8)}

theorem OnStack.length_stack (h : OnStack st rest dummy sigs m keys n) :
    st.stack.length = rest.length + (keys.length + sigs.length + 3) := by
  rw [h.stack_eq]
  simp only [List.length_append, List.length_cons, List.length_nil]
  omega

theorem OnStack.readCounts_eq (h : OnStack st rest dummy sigs m keys n) :
    readCounts st = .ok (keys.length, sigs.length) := by
  have hlen := h.length_stack
  have htop : st.stacktop 1 = n := by
    refine ScriptState.stacktop_eq (rest ++ dummy :: (sigs ++ m :: keys)) [] ?_
    rw [h.stack_eq]
    simp
  have hcount : st.stacktop (keys.length + 2) = m := by
    have hsplit : st.stack = (rest ++ dummy :: sigs) ++ m :: (keys ++ [n]) := by
      rw [h.stack_eq]
      simp
    have := ScriptState.stacktop_eq _ _ hsplit
    rwa [List.length_append] at this
  have hkeys := h.keys_le
  have hsigs := h.sigs_le
  have hops := h.ops_le
  unfold readCounts
  simp only
  rw [if_neg (by omega), htop, h.nKeys]
  simp only [Int.toNat_natCast]
  rw [if_neg (by omega), if_neg (by omega), if_neg (by omega), hcount, h.nSigs]
  simp only [Int.toNat_natCast]
  rw [if_neg (by omega), if_neg (by omega)]

theorem OnStack.dummy_eq (h : OnStack st rest dummy sigs m keys n) :
    st.stacktop (keys.length + sigs.length + 3) = dummy := by
  have := ScriptState.stacktop_eq _ _ h.stack_eq
  simp only [List.length_append, List.length_cons, List.length_nil] at this
  rw [← this]
  congr 1
  omega

theorem OnStack.stack_leave (h : OnStack st rest dummy sigs m keys n) (b : Bool) :
    (st.leave keys.length sigs.length b).stack = rest ++ [pushedBool b] := by
  unfold ScriptState.leave
  simp only
  rw [h.length_stack, Nat.add_sub_cancel, h.stack_eq, List.take_left]

theorem OnStack.multisigFinish_eq (h : OnStack st rest dummy sigs m keys n) (exit : CmsExit) :
    multisigFinish st keys.length sigs.length sigs.reverse exit =
      if exit = .ended 0 then .ok (st.leave keys.length sigs.length true)
      else if st.flags.nullfail ∧ ∃ sig ∈ sigs, sig ≠ [] then .error .sigNullfail
      else .ok (st.leave keys.length sigs.length false) := by
  have hdummy : ¬ (st.flags.nulldummy = true ∧ st.stacktop (keys.length + sigs.length + 3) ≠ []) := by
    rw [h.dummy_eq]
    exact fun hbad => hbad.2 (h.dummy_ok hbad.1)
  unfold multisigFinish
  simp only [hdummy, List.mem_reverse, if_false]
  cases exit with
  | fail => simp
  | ended remaining => simp

theorem EncodingsOk.checkPair_eq (h : EncodingsOk st sigs keys code) {sig key : List UInt8}
    (hsig : sig ∈ sigs) (hkey : key ∈ keys) :
    checkPair st code sig key = .ok (st.verdict code sig key) := by
  unfold checkPair
  rw [h.sig sig hsig]
  simp only
  rw [if_pos (h.key key hkey)]

open Classical in
/-- The opcode with or without its early exit. -/
theorem multisigWith_eq (early : Bool) (h : OnStack st rest dummy sigs m keys n)
    (henc : EncodingsOk st sigs keys code) :
    multisigWith early st =
      if Matched (fun sig key => st.verdict code sig key = true) sigs keys then
        .ok (st.leave keys.length sigs.length true)
      else if st.flags.nullfail ∧ ∃ sig ∈ sigs, sig ≠ [] then .error .sigNullfail
      else .ok (st.leave keys.length sigs.length false) := by
  have hkeys : ((List.range keys.length).map fun j => st.stacktop (2 + j)) = keys.reverse :=
    ScriptState.map_stacktop (rest ++ dummy :: (sigs ++ [m])) [n]
      (by rw [h.stack_eq]; simp) rfl
  have hsigs : ((List.range sigs.length).map fun j => st.stacktop (keys.length + 3 + j)) =
      sigs.reverse :=
    ScriptState.map_stacktop (rest ++ [dummy]) (m :: (keys ++ [n]))
      (by rw [h.stack_eq]; simp) (by simp)
  have hcheck : ∀ sig ∈ sigs.reverse, ∀ key ∈ keys.reverse,
      checkPair st code sig key = .ok (st.verdict code sig key) := fun sig hsig key hkey =>
    henc.checkPair_eq (List.mem_reverse.mp hsig) (List.mem_reverse.mp hkey)
  have hlen : 0 + keys.length = keys.reverse.length := by rw [List.length_reverse, Nat.zero_add]
  have hspent : 0 + sigs.length = sigs.reverse.length := by rw [List.length_reverse, Nat.zero_add]
  obtain ⟨exit, hloop, hexit⟩ := @cmsLoop_spec early _ _ _ _ hcheck _ _ _ _ hlen hspent
  rw [List.drop_zero, List.drop_zero, sublistForall₂_reverse, ← matched_iff_sublistForall₂] at hexit
  unfold multisigWith
  rw [h.readCounts_eq]
  simp only
  rw [hkeys, hsigs, henc.code_eq]
  simp only
  rw [hloop]
  simp only
  rw [h.multisigFinish_eq]
  simp only [hexit]

/-- The opcode leaves true exactly when the signatures can be given keys in order, one each,
that they pass with; otherwise it leaves false, or NULLFAIL refuses a signature that is not
empty.  Giving up early changes nothing. -/
theorem interpCheckmultisig_true_iff (h : OnStack st rest dummy sigs m keys n)
    (henc : EncodingsOk st sigs keys code) :
    ((∃ st', interpCheckmultisig st = .ok st' ∧ st'.stack = rest ++ [pushedBool true]) ↔
      ∃ f : Fin sigs.length → Fin keys.length, StrictMono f ∧
        ∀ i, st.verdict code (sigs.get i) (keys.get (f i)) = true) ∧
    ((∃ st', interpCheckmultisig st = .ok st' ∧ st'.stack = rest ++ [pushedBool true]) ∨
      (∃ st', interpCheckmultisig st = .ok st' ∧ st'.stack = rest ++ [pushedBool false]) ∨
      (interpCheckmultisig st = .error .sigNullfail ∧ st.flags.nullfail = true ∧
        ∃ sig ∈ sigs, sig ≠ [])) ∧
    multisigWith false st = interpCheckmultisig st := by
  classical
  have heq := multisigWith_eq true h henc
  have htrue := h.stack_leave true
  have hfalse := h.stack_leave false
  refine ⟨?_, ?_, (multisigWith_eq false h henc).trans heq.symm⟩
  · change _ ↔ Matched (fun sig key => st.verdict code sig key = true) sigs keys
    unfold interpCheckmultisig
    rw [heq]
    constructor
    · rintro ⟨st', hst', hstack⟩
      by_contra hmatch
      rw [if_neg hmatch] at hst'
      split at hst'
      · cases hst'
      · cases hst'
        rw [hfalse, List.append_cancel_left_eq] at hstack
        cases hstack
    · intro hmatch
      exact ⟨_, if_pos hmatch, htrue⟩
  · unfold interpCheckmultisig
    rw [heq]
    split
    · exact .inl ⟨_, rfl, htrue⟩
    · split
      · next hnull => exact .inr (.inr ⟨rfl, hnull⟩)
      · exact .inr (.inl ⟨_, rfl, hfalse⟩)

end Called

def sampleSig (r : UInt8) : List UInt8 := [0x30, 6, 2, 1, r, 2, 1, 1, 1]
def sampleKey (r : UInt8) : List UInt8 := 2 :: List.replicate 32 r

/-- Two signatures of three keys over an element that stays, under every rule; a signature
passes with the key of its number. -/
def sampleMultisig : ScriptState where
  stack := [[7], [], sampleSig 1, sampleSig 3, [2], sampleKey 1, sampleKey 2, sampleKey 3, [3]]
  stack_le := by decide
  elem_le := by decide
  flags := ⟨true, true, true, true, true, true, true⟩
  sigversion := .base
  opCount := 1
  code := [0xae]
  code_le := by decide
  checksig := some fun sig key _ => byteAt sig 4 = byteAt key 1

theorem interpCheckmultisig_sample :
    ∃ st', interpCheckmultisig sampleMultisig = .ok st' ∧ st'.stack = [[7]] ++ [pushedBool true] := by
  have hlaid : OnStack sampleMultisig [[7]] [] [sampleSig 1, sampleSig 3] [2]
      [sampleKey 1, sampleKey 2, sampleKey 3] [3] :=
    ⟨rfl, by decide, by decide, by decide, by decide, by decide, fun _ => rfl⟩
  have henc : EncodingsOk sampleMultisig [sampleSig 1, sampleSig 3]
      [sampleKey 1, sampleKey 2, sampleKey 3] [0xae] :=
    ⟨by decide, by decide, by decide⟩
  refine (interpCheckmultisig_true_iff hlaid henc).1.mpr ⟨fun i => if i = 0 then 0 else 2, ?_, ?_⟩
  · decide
  · decide

end BitcoinMachineCode.Consensus
