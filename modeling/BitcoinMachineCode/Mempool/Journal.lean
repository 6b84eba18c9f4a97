import BitcoinMachineCode.Foundation.Digits
import BitcoinMachineCode.Foundation.FileBytes
import BitcoinMachineCode.Foundation.PartialMap
import Mathlib.Logic.Function.Basic

/-!
# The departure journal

`daemon/mempool_journal.c` writes a record for every departure into a ring that processes
share, and reads it without a lock.  An append takes a sequence number, zeroes the tail
stamp of its slot, stamps the head, writes the record and stamps the tail; a read wants its
number in the tail, before and after it has copied the record, and in the head.

Loads and stores are in one order for all processes.  The stamps are whole words, the
record is read and written a byte at a time.
-/

namespace BitcoinMachineCode.Mempool.Journal

open BitcoinMachineCode.Foundation

/-! ## Records -/

structure MpjRec where
  txid : Bytes 32
  wtxid : Bytes 32
  aux : Bytes 32
  firstSeen : UInt64
  departedAt : UInt64
  vsize : UInt64
  feeSat : UInt64
  reason : UInt32
  height : UInt32
  deriving DecidableEq

def mpjReasonMax : Nat := 5

def badReason (reason : UInt32) : Bool := reason.toNat = 0 || mpjReasonMax < reason.toNat

/-- The bytes between the two stamps. -/
def bodyBytes : Nat := 136

def MpjRec.encode (r : MpjRec) : List UInt8 :=
  r.txid.1 ++ (r.wtxid.1 ++ (r.aux.1 ++ (leBytes 8 r.firstSeen.toNat ++ (leBytes 8 r.departedAt.toNat ++
    (leBytes 8 r.vsize.toNat ++ (leBytes 8 r.feeSat.toNat ++ (leBytes 4 r.reason.toNat ++
      leBytes 4 r.height.toNat)))))))

def MpjRec.decode (bytes : List UInt8) : MpjRec where
  txid := Bytes.ofList 32 (pread bytes 0 32)
  wtxid := Bytes.ofList 32 (pread bytes 32 32)
  aux := Bytes.ofList 32 (pread bytes 64 32)
  firstSeen := UInt64.ofNat (leVal (pread bytes 96 8))
  departedAt := UInt64.ofNat (leVal (pread bytes 104 8))
  vsize := UInt64.ofNat (leVal (pread bytes 112 8))
  feeSat := UInt64.ofNat (leVal (pread bytes 120 8))
  reason := UInt32.ofNat (leVal (pread bytes 128 4))
  height := UInt32.ofNat (leVal (pread bytes 132 4))

/-! ## The ring and its processes -/

structure Slot where
  head : Nat
  tail : Nat
  body : List UInt8

/-- What a process does next. -/
inductive Proc where
  | idle
  | dead
  | zeroTail (r : MpjRec) (seq : Nat)
  | stampHead (r : MpjRec) (seq : Nat)
  | writeByte (r : MpjRec) (seq k : Nat)
  | stampTail (r : MpjRec) (seq : Nat)
  | checkTail (seq : Nat)
  | copyByte (seq : Nat) (buf : List UInt8)
  | recheckTail (seq : Nat) (buf : List UInt8)
  | recheckHead (seq : Nat) (buf : List UInt8)

/-- The shared ring, the processes, and what was given to appends and returned by reads. -/
structure Ring where
  nextSeq : Nat
  slots : Nat → Slot
  procs : Nat → Proc
  given : PMap Nat MpjRec
  returned : List (Nat × MpjRec)

/-- A new file: no slot has been written, and numbers start at 1. -/
def Ring.init : Ring :=
  ⟨1, fun _ => ⟨0, 0, List.replicate bodyBytes 0⟩, fun _ => .idle, fun _ => none, []⟩

def slotAt (cap seq : Nat) : Nat := (seq - 1) % cap

inductive Action where
  | append (p : Nat) (r : MpjRec)
  | read (p seq : Nat)
  | next (p : Nat)
  | die (p : Nat)

namespace Ring

def setProc (s : Ring) (p : Nat) (proc : Proc) : Ring :=
  { s with procs := Function.update s.procs p proc }

def setSlot (s : Ring) (i : Nat) (slot : Slot) : Ring :=
  { s with slots := Function.update s.slots i slot }

/-- One number for each append; 0 is passed over. -/
def takeSeq (s : Ring) (p : Nat) (r : MpjRec) : Ring :=
  let seq := if s.nextSeq = 0 then s.nextSeq + 1 else s.nextSeq
  { s with
    nextSeq := seq + 1
    procs := Function.update s.procs p (.zeroTail r seq)
    given := s.given.put seq r }

/-- One load or store of `mpj_append` or `read_slot`. -/
def next (cap : Nat) (s : Ring) (p : Nat) : Option Ring :=
  match s.procs p with
  | .idle => none
  | .dead => none
  | .zeroTail r seq =>
      let i := slotAt cap seq
      some ((s.setSlot i { s.slots i with tail := 0 }).setProc p (.stampHead r seq))
  | .stampHead r seq =>
      let i := slotAt cap seq
      some ((s.setSlot i { s.slots i with head := seq }).setProc p (.writeByte r seq 0))
  | .writeByte r seq k =>
      let i := slotAt cap seq
      some ((s.setSlot i { s.slots i with body := (s.slots i).body.set k (r.encode.getD k 0) }).setProc p
        (if k + 1 < bodyBytes then .writeByte r seq (k + 1) else .stampTail r seq))
  | .stampTail _ seq =>
      let i := slotAt cap seq
      some ((s.setSlot i { s.slots i with tail := seq }).setProc p .idle)
  | .checkTail seq =>
      some (s.setProc p (if (s.slots (slotAt cap seq)).tail = seq then .copyByte seq [] else .idle))
  | .copyByte seq buf =>
      let buf := buf ++ [(s.slots (slotAt cap seq)).body.getD buf.length 0]
      some (s.setProc p (if buf.length < bodyBytes then .copyByte seq buf else .recheckTail seq buf))
  | .recheckTail seq buf =>
      some (s.setProc p (if (s.slots (slotAt cap seq)).tail = seq then .recheckHead seq buf else .idle))
  | .recheckHead seq buf =>
      let done := s.setProc p .idle
      if (s.slots (slotAt cap seq)).head = seq ∧ badReason (MpjRec.decode buf).reason = false then
        some { done with returned := (seq, MpjRec.decode buf) :: s.returned }
      else some done

/-- An append with a reason that is none returns at once; numbers that are read start
at 1. -/
def step (cap : Nat) (s : Ring) : Action → Option Ring
  | .append p r =>
      match s.procs p with
      | .idle => if badReason r.reason then some s else some (s.takeSeq p r)
      | _ => none
  | .read p seq =>
      match s.procs p with
      | .idle => if seq = 0 then none else some (s.setProc p (.checkTail seq))
      | _ => none
  | .next p => s.next cap p
  | .die p => some (s.setProc p .dead)

def run (cap : Nat) : List Action → Ring → Option Ring
  | [], s => some s
  | a :: as, s =>
      match s.step cap a with
      | none => none
      | some s => run cap as s

end Ring

/-! ## Records as bytes -/

theorem MpjRec.length_encode (r : MpjRec) : r.encode.length = bodyBytes := by
  unfold encode bodyBytes
  simp only [List.length_append, length_leBytes, r.txid.2, r.wtxid.2, r.aux.2]

theorem ofNat_leVal_leBytes (x : UInt64) : UInt64.ofNat (leVal (leBytes 8 x.toNat)) = x := by
  rw [leVal_leBytes, Nat.mod_eq_of_lt (show x.toNat < 256 ^ 8 from x.toNat_lt), UInt64.ofNat_toNat]

theorem ofNat_leVal_leBytes_four (x : UInt32) : UInt32.ofNat (leVal (leBytes 4 x.toNat)) = x := by
  rw [leVal_leBytes, Nat.mod_eq_of_lt (show x.toNat < 256 ^ 4 from x.toNat_lt), UInt32.ofNat_toNat]

theorem pread_first {mid : List UInt8} (back : List UInt8) {len : Nat} (h : mid.length = len) :
    pread (mid ++ back) 0 len = mid :=
  @pread_append _ [] mid back 0 len rfl h

theorem pread_skip {front : List UInt8} (back : List UInt8) {n : Nat} (off len : Nat) (h : front.length = n) :
    pread (front ++ back) (n + off) len = pread back off len := by
  subst h
  exact pread_append_right ..

theorem MpjRec.decode_encode (r : MpjRec) : decode r.encode = r := by
  have h₁ := r.txid.2
  have h₂ := r.wtxid.2
  have h₃ := r.aux.2
  have h₈ : ∀ n, (leBytes 8 n).length = 8 := length_leBytes 8
  have h₄ : ∀ n, (leBytes 4 n).length = 4 := length_leBytes 4
  have hids : ∀ off len, pread r.encode (96 + off) len = pread (leBytes 8 r.firstSeen.toNat ++
      (leBytes 8 r.departedAt.toNat ++ (leBytes 8 r.vsize.toNat ++ (leBytes 8 r.feeSat.toNat ++
        (leBytes 4 r.reason.toNat ++ leBytes 4 r.height.toNat))))) off len := by
    intro off len
    unfold encode
    rw [← List.append_assoc, ← List.append_assoc]
    exact pread_skip _ off len (by simp [h₁, h₂, h₃])
  have htimes : ∀ off len, pread r.encode (112 + off) len = pread (leBytes 8 r.vsize.toNat ++
      (leBytes 8 r.feeSat.toNat ++ (leBytes 4 r.reason.toNat ++ leBytes 4 r.height.toNat))) off len := by
    intro off len
    rw [show 112 + off = 96 + (8 + (8 + off)) by omega, hids, pread_skip _ _ _ (h₈ _),
      pread_skip _ _ _ (h₈ _)]
  have hlast : ∀ off len, pread r.encode (128 + off) len =
      pread (leBytes 4 r.reason.toNat ++ leBytes 4 r.height.toNat) off len := by
    intro off len
    rw [show 128 + off = 112 + (8 + (8 + off)) by omega, htimes, pread_skip _ _ _ (h₈ _),
      pread_skip _ _ _ (h₈ _)]
  have htxid : pread r.encode 0 32 = r.txid.1 := pread_first _ h₁
  have hwtxid : pread r.encode 32 32 = r.wtxid.1 := (pread_skip _ 0 32 h₁).trans (pread_first _ h₂)
  have haux : pread r.encode 64 32 = r.aux.1 :=
    (pread_skip _ 32 32 h₁).trans ((pread_skip _ 0 32 h₂).trans (pread_first _ h₃))
  have hfirst : pread r.encode 96 8 = leBytes 8 r.firstSeen.toNat :=
    (hids 0 8).trans (pread_first _ (h₈ _))
  have hdeparted : pread r.encode 104 8 = leBytes 8 r.departedAt.toNat :=
    (hids 8 8).trans ((pread_skip _ 0 8 (h₈ _)).trans (pread_first _ (h₈ _)))
  have hvsize : pread r.encode 112 8 = leBytes 8 r.vsize.toNat :=
    (htimes 0 8).trans (pread_first _ (h₈ _))
  have hfee : pread r.encode 120 8 = leBytes 8 r.feeSat.toNat :=
    (htimes 8 8).trans ((pread_skip _ 0 8 (h₈ _)).trans (pread_first _ (h₈ _)))
  have hreason : pread r.encode 128 4 = leBytes 4 r.reason.toNat :=
    (hlast 0 4).trans (pread_first _ (h₄ _))
  have hheight : pread r.encode 132 4 = leBytes 4 r.height.toNat := by
    have hskip := (hlast 4 4).trans (pread_skip _ 0 4 (h₄ _))
    rwa [← List.append_nil (leBytes 4 r.height.toNat), pread_first _ (h₄ _)] at hskip
  unfold decode
  rw [htxid, hwtxid, haux, hfirst, hdeparted, hvsize, hfee, hreason, hheight]
  simp only [Bytes.ofList_val, ofNat_leVal_leBytes, ofNat_leVal_leBytes_four]

/-! ## Appends that are apart -/

def Action.proc : Action → Nat
  | .append p _ => p
  | .read p _ => p
  | .next p => p
  | .die p => p

/-- The append a process is in, from the number it took to its last store. -/
def Proc.appends : Proc → Option (MpjRec × Nat)
  | .zeroTail r seq => some (r, seq)
  | .stampHead r seq => some (r, seq)
  | .writeByte r seq _ => some (r, seq)
  | .stampTail r seq => some (r, seq)
  | _ => none

/-- The append a process is in, from its first store to its last. -/
def Proc.writes : Proc → Option (MpjRec × Nat)
  | .stampHead r seq => some (r, seq)
  | .writeByte r seq _ => some (r, seq)
  | .stampTail r seq => some (r, seq)
  | _ => none

/-- No append starts to store in a slot where another one, not dead, still stores. -/
def Apart (cap : Nat) (s : Ring) : Action → Prop
  | .next p => ∀ r seq, s.procs p = .zeroTail r seq →
      ∀ q r' seq', (s.procs q).writes = some (r', seq') → slotAt cap seq' ≠ slotAt cap seq
  | _ => True

def ApartRun (cap : Nat) : List Action → Ring → Prop
  | [], _ => True
  | a :: as, s => Apart cap s a ∧ ∀ s', s.step cap a = some s' → ApartRun cap as s'

namespace Ring

/-- No process is in the append that took the number. -/
def Finished (s : Ring) (seq : Nat) : Prop := ∀ p r, (s.procs p).appends ≠ some (r, seq)

/-- The number is one whose append is over, and what was copied is of its record as long as
its stamp stands. -/
def Copied (cap : Nat) (s : Ring) (seq : Nat) (buf : List UInt8) : Prop :=
  0 < seq ∧ s.Finished seq ∧ ∃ r, s.given seq = some r ∧
    ((s.slots (slotAt cap seq)).tail = seq → buf = r.encode.take buf.length)

def Owns (s : Ring) (r : MpjRec) (seq : Nat) : Prop := s.given seq = some r ∧ 0 < seq

/-- What holds of a process at each of its steps. -/
def Ok (cap : Nat) (s : Ring) : Proc → Prop
  | .idle => True
  | .dead => True
  | .zeroTail r seq => s.Owns r seq
  | .stampHead r seq => s.Owns r seq ∧ (s.slots (slotAt cap seq)).tail = 0
  | .writeByte r seq k => s.Owns r seq ∧ (s.slots (slotAt cap seq)).tail = 0 ∧
      (s.slots (slotAt cap seq)).head = seq ∧ k < bodyBytes ∧
      (s.slots (slotAt cap seq)).body.take k = r.encode.take k
  | .stampTail r seq => s.Owns r seq ∧ (s.slots (slotAt cap seq)).tail = 0 ∧
      (s.slots (slotAt cap seq)).head = seq ∧ (s.slots (slotAt cap seq)).body = r.encode
  | .checkTail seq => 0 < seq
  | .copyByte seq buf => s.Copied cap seq buf ∧ buf.length < bodyBytes
  | .recheckTail seq buf => s.Copied cap seq buf ∧ buf.length = bodyBytes
  | .recheckHead seq buf => ∃ r, s.given seq = some r ∧ buf = r.encode

structure Sound (cap : Nat) (s : Ring) : Prop where
  seq_pos : 0 < s.nextSeq
  fresh : ∀ seq, s.nextSeq ≤ seq → s.given seq = none
  one : ∀ p q r r' seq, (s.procs p).appends = some (r, seq) → (s.procs q).appends = some (r', seq) → p = q
  alone : ∀ p q r r' a b, (s.procs p).writes = some (r, a) → (s.procs q).writes = some (r', b) →
    slotAt cap a = slotAt cap b → p = q
  body_length : ∀ i, (s.slots i).body.length = bodyBytes
  settled : ∀ i, (s.slots i).tail ≠ 0 → ∃ r, s.given (s.slots i).tail = some r ∧
    s.Finished (s.slots i).tail ∧ (s.slots i).head = (s.slots i).tail ∧ (s.slots i).body = r.encode
  ok : ∀ p, s.Ok cap (s.procs p)
  answered : ∀ e ∈ s.returned, s.given e.1 = some e.2

theorem sound_init (cap : Nat) : Sound cap init where
  seq_pos := Nat.one_pos
  fresh := fun _ _ => rfl
  one := nofun
  alone := nofun
  body_length := fun _ => List.length_replicate ..
  settled := fun _ h => absurd rfl h
  ok := fun _ => trivial
  answered := nofun

theorem appends_of_writes {proc : Proc} {a : MpjRec × Nat} (h : proc.writes = some a) :
    proc.appends = some a := by
  cases proc <;> first | exact h | cases h

/-- Other processes do not mind a change that keeps the numbers given, the appends over and
the slots they store in, and brings no stamp of theirs back. -/
theorem Ok.frame {cap : Nat} {s s' : Ring} {proc : Proc} (h : s.Ok cap proc)
    (hgiven : ∀ seq r, s.given seq = some r → s'.given seq = some r)
    (hfinished : ∀ seq r, s.given seq = some r → s.Finished seq → s'.Finished seq)
    (hslots : ∀ r seq, proc.writes = some (r, seq) → s'.slots (slotAt cap seq) = s.slots (slotAt cap seq))
    (htail : ∀ seq, 0 < seq → s.Finished seq → (s'.slots (slotAt cap seq)).tail = seq →
      (s.slots (slotAt cap seq)).tail = seq) : s'.Ok cap proc := by
  have howns : ∀ {r seq}, s.Owns r seq → s'.Owns r seq := fun ho => ⟨hgiven _ _ ho.1, ho.2⟩
  have hcopied : ∀ {seq buf}, s.Copied cap seq buf → s'.Copied cap seq buf := by
    rintro seq buf ⟨hpos, hfin, r, hr, hbuf⟩
    exact ⟨hpos, hfinished seq r hr hfin, r, hgiven _ _ hr, fun ht => hbuf (htail seq hpos hfin ht)⟩
  cases proc with
  | idle => trivial
  | dead => trivial
  | zeroTail r seq => exact howns h
  | stampHead r seq =>
      simp only [Ok] at h ⊢
      rw [hslots r seq rfl]
      exact ⟨howns h.1, h.2⟩
  | writeByte r seq k =>
      simp only [Ok] at h ⊢
      rw [hslots r seq rfl]
      exact ⟨howns h.1, h.2⟩
  | stampTail r seq =>
      simp only [Ok] at h ⊢
      rw [hslots r seq rfl]
      exact ⟨howns h.1, h.2⟩
  | checkTail seq => exact h
  | copyByte seq buf => exact ⟨hcopied h.1, h.2⟩
  | recheckTail seq buf => exact ⟨hcopied h.1, h.2⟩
  | recheckHead seq buf =>
      obtain ⟨r, hr, hbuf⟩ := h
      exact ⟨r, hgiven _ _ hr, hbuf⟩

section Steps

variable {cap : Nat} {s : Ring} {p : Nat} {proc : Proc}

theorem finished_setProc {seq : Nat} (h : s.Finished seq) (hproc : ∀ r, proc.appends ≠ some (r, seq)) :
    (s.setProc p proc).Finished seq := by
  intro q r
  by_cases hq : q = p
  · subst hq
    simpa [setProc] using hproc r
  · simpa [setProc, hq] using h q r

/-- A process that is in no append after the step. -/
theorem Sound.setProc (h : s.Sound cap) (p : Nat) (happends : proc.appends = none) (hok : s.Ok cap proc) :
    (s.setProc p proc).Sound cap := by
  have hwrites : proc.writes = none := by
    cases hw : proc.writes with
    | none => rfl
    | some a => rw [appends_of_writes hw] at happends; cases happends
  have hold : ∀ {q a}, ((s.setProc p proc).procs q).appends = some a →
      (s.procs q).appends = some a := by
    intro q a hq
    by_cases hqp : q = p
    · subst hqp
      simp [Ring.setProc, happends] at hq
    · simpa [Ring.setProc, hqp] using hq
  have hold' : ∀ {q a}, ((s.setProc p proc).procs q).writes = some a → (s.procs q).writes = some a := by
    intro q a hq
    by_cases hqp : q = p
    · subst hqp
      simp [Ring.setProc, hwrites] at hq
    · simpa [Ring.setProc, hqp] using hq
  have hfinished : ∀ seq, s.Finished seq → (s.setProc p proc).Finished seq :=
    fun seq hf => finished_setProc hf (by simp [happends])
  refine ⟨h.seq_pos, h.fresh, fun a b r r' seq ha hb => h.one a b r r' seq (hold ha) (hold hb),
    fun a b r r' x y ha hb => h.alone a b r r' x y (hold' ha) (hold' hb), h.body_length, ?_, ?_, h.answered⟩
  · intro i hi
    obtain ⟨r, hr, hf, hrest⟩ := h.settled i hi
    exact ⟨r, hr, hfinished _ hf, hrest⟩
  · intro q
    have hframe : ∀ {pr : Proc}, s.Ok cap pr → (s.setProc p proc).Ok cap pr := fun hpr =>
      hpr.frame (fun _ _ hr => hr) (fun seq _ _ => hfinished seq) (fun _ _ _ => rfl) (fun _ _ _ ht => ht)
    by_cases hqp : q = p
    · subst hqp
      simpa [Ring.setProc] using hframe hok
    · simpa [Ring.setProc, hqp] using hframe (h.ok q)

/-- A store of an append other than its last one. -/
theorem Sound.store (h : s.Sound cap) {r : MpjRec} {seq : Nat} {slot : Slot}
    (happends : (s.procs p).appends = some (r, seq)) (happends' : proc.appends = some (r, seq))
    (hwrites : proc.writes = some (r, seq)) (htail : slot.tail = 0) (hlen : slot.body.length = bodyBytes)
    (halone : ∀ q ≠ p, ∀ r' seq', (s.procs q).writes = some (r', seq') → slotAt cap seq' ≠ slotAt cap seq)
    (hok : ((s.setSlot (slotAt cap seq) slot).setProc p proc).Ok cap proc) :
    ((s.setSlot (slotAt cap seq) slot).setProc p proc).Sound cap := by
  generalize hs' : (s.setSlot (slotAt cap seq) slot).setProc p proc = s' at hok ⊢
  have hprocs : s'.procs = Function.update s.procs p proc := by rw [← hs']; rfl
  have hslots : s'.slots = Function.update s.slots (slotAt cap seq) slot := by rw [← hs']; rfl
  have hgiven : s'.given = s.given := by rw [← hs']; rfl
  have happ : ∀ q, (s'.procs q).appends = (s.procs q).appends := by
    intro q
    rw [hprocs]
    by_cases hqp : q = p
    · subst hqp
      rw [Function.update_self, happends, happends']
    · rw [Function.update_of_ne hqp]
  have hfinished : ∀ n, s.Finished n → s'.Finished n := fun n hn q r => by rw [happ]; exact hn q r
  refine ⟨?_, ?_, ?_, ?_, ?_, ?_, ?_, ?_⟩
  · rw [← hs']
    exact h.seq_pos
  · rw [← hs']
    exact h.fresh
  · intro a b x y n ha hb
    rw [happ] at ha hb
    exact h.one a b x y n ha hb
  · intro a b x y m n ha hb hab
    rw [hprocs] at ha hb
    by_cases hap : a = p <;> by_cases hbp : b = p
    · rw [hap, hbp]
    · subst hap
      rw [Function.update_self, hwrites] at ha
      rw [Function.update_of_ne hbp] at hb
      cases ha
      exact absurd hab.symm (halone b hbp y n hb)
    · subst hbp
      rw [Function.update_self, hwrites] at hb
      rw [Function.update_of_ne hap] at ha
      cases hb
      exact absurd hab (halone a hap x m ha)
    · rw [Function.update_of_ne hap] at ha
      rw [Function.update_of_ne hbp] at hb
      exact h.alone a b x y m n ha hb hab
  · intro i
    rw [hslots]
    by_cases hi : i = slotAt cap seq
    · rw [hi, Function.update_self, hlen]
    · rw [Function.update_of_ne hi, h.body_length]
  · intro i hi
    rw [hslots] at hi ⊢
    by_cases his : i = slotAt cap seq
    · rw [his, Function.update_self] at hi
      exact absurd htail hi
    · rw [Function.update_of_ne his] at hi ⊢
      obtain ⟨x, hx, hf, hrest⟩ := h.settled i hi
      exact ⟨x, hgiven ▸ hx, hfinished _ hf, hrest⟩
  · intro q
    by_cases hqp : q = p
    · subst hqp
      rw [hprocs, Function.update_self]
      exact hok
    · rw [hprocs, Function.update_of_ne hqp]
      refine (h.ok q).frame (fun _ _ hr => hgiven ▸ hr) (fun n _ _ => hfinished n) ?_ ?_
      · intro x n hx
        rw [hslots, Function.update_of_ne (halone q hqp x n hx)]
      · intro n hn _ ht
        rw [hslots] at ht
        by_cases his : slotAt cap n = slotAt cap seq
        · rw [his, Function.update_self, htail] at ht
          omega
        · rwa [Function.update_of_ne his] at ht
  · rw [← hs']
    exact h.answered

/-- The last store of an append: its record stands whole under its stamps. -/
theorem Sound.lastStore (h : s.Sound cap) {r : MpjRec} {seq : Nat} (hproc : s.procs p = .stampTail r seq) :
    ((s.setSlot (slotAt cap seq) { s.slots (slotAt cap seq) with tail := seq }).setProc p .idle).Sound cap := by
  have hok := h.ok p
  rw [hproc] at hok
  obtain ⟨⟨hr, hpos⟩, -, hhead, hbody⟩ := hok
  have happends : (s.procs p).appends = some (r, seq) := by rw [hproc]; rfl
  have hwrites : (s.procs p).writes = some (r, seq) := by rw [hproc]; rfl
  generalize hs' : (s.setSlot (slotAt cap seq) { s.slots (slotAt cap seq) with tail := seq }).setProc p .idle = s'
  have hprocs : s'.procs = Function.update s.procs p .idle := by rw [← hs']; rfl
  have hslots : s'.slots =
      Function.update s.slots (slotAt cap seq) { s.slots (slotAt cap seq) with tail := seq } := by
    rw [← hs']
    rfl
  have hgiven : s'.given = s.given := by rw [← hs']; rfl
  have hold : ∀ {q a}, (s'.procs q).appends = some a → q ≠ p ∧ (s.procs q).appends = some a := by
    intro q a hq
    rw [hprocs] at hq
    by_cases hqp : q = p
    · subst hqp
      rw [Function.update_self] at hq
      cases hq
    · rw [Function.update_of_ne hqp] at hq
      exact ⟨hqp, hq⟩
  have hold' : ∀ {q a}, (s'.procs q).writes = some a → (s.procs q).writes = some a := by
    intro q a hq
    rw [hprocs] at hq
    by_cases hqp : q = p
    · subst hqp
      rw [Function.update_self] at hq
      cases hq
    · rwa [Function.update_of_ne hqp] at hq
  have hfinished : ∀ n, s.Finished n → s'.Finished n := fun n hn q x hq => hn q x (hold hq).2
  refine ⟨?_, ?_, ?_, ?_, ?_, ?_, ?_, ?_⟩
  · rw [← hs']
    exact h.seq_pos
  · rw [← hs']
    exact h.fresh
  · exact fun a b x y n ha hb => h.one a b x y n (hold ha).2 (hold hb).2
  · exact fun a b x y m n ha hb => h.alone a b x y m n (hold' ha) (hold' hb)
  · intro i
    rw [hslots]
    by_cases hi : i = slotAt cap seq
    · rw [hi, Function.update_self]
      exact h.body_length _
    · rw [Function.update_of_ne hi, h.body_length]
  · intro i hi
    rw [hslots, hgiven] at *
    by_cases his : i = slotAt cap seq
    · subst his
      rw [Function.update_self]
      exact ⟨r, hr, fun q x hq => (hold hq).1 (h.one q p x r seq (hold hq).2 happends), hhead, hbody⟩
    · rw [Function.update_of_ne his] at hi ⊢
      obtain ⟨x, hx, hf, hrest⟩ := h.settled i hi
      exact ⟨x, hx, hfinished _ hf, hrest⟩
  · intro q
    by_cases hqp : q = p
    · subst hqp
      rw [hprocs, Function.update_self]
      trivial
    · rw [hprocs, Function.update_of_ne hqp]
      refine (h.ok q).frame (fun _ _ hx => hgiven ▸ hx) (fun n _ _ => hfinished n) ?_ ?_
      · intro x n hx
        rw [hslots, Function.update_of_ne]
        exact fun heq => hqp (h.alone q p x r n seq hx hwrites heq)
      · intro n _ hfin ht
        rw [hslots] at ht
        by_cases his : slotAt cap n = slotAt cap seq
        · rw [his, Function.update_self] at ht
          change seq = n at ht
          subst ht
          exact absurd happends (hfin p r)
        · rwa [Function.update_of_ne his] at ht
  · rw [← hs']
    exact h.answered

theorem Sound.takeSeq (h : s.Sound cap) (hidle : s.procs p = .idle) (r : MpjRec) :
    (s.takeSeq p r).Sound cap := by
  have hpos := h.seq_pos
  generalize hs' : s.takeSeq p r = s'
  have hseq : (if s.nextSeq = 0 then s.nextSeq + 1 else s.nextSeq) = s.nextSeq := if_neg hpos.ne'
  have hprocs : s'.procs = Function.update s.procs p (.zeroTail r s.nextSeq) := by
    rw [← hs']
    simp only [Ring.takeSeq, hseq]
  have hgiven : s'.given = s.given.put s.nextSeq r := by
    rw [← hs']
    simp only [Ring.takeSeq, hseq]
  have hnext : s'.nextSeq = s.nextSeq + 1 := by
    rw [← hs']
    simp only [Ring.takeSeq, hseq]
  have hslots : s'.slots = s.slots := by rw [← hs']; rfl
  have hnone : s.given s.nextSeq = none := h.fresh _ le_rfl
  have hput : ∀ {n x}, s.given n = some x → s'.given n = some x ∧ n ≠ s.nextSeq := by
    intro n x hx
    have hne : n ≠ s.nextSeq := by
      rintro rfl
      rw [hnone] at hx
      cases hx
    rw [hgiven]
    exact ⟨by rwa [PMap.put_of_ne _ _ hne], hne⟩
  have howned : ∀ {q x n}, (s.procs q).appends = some (x, n) → s.given n = some x := by
    intro q x n hq
    have hok := h.ok q
    cases hp : s.procs q <;> rw [hp] at hq hok <;> cases hq
    · exact hok.1
    · exact hok.1.1
    · exact hok.1.1
    · exact hok.1.1
  have hold : ∀ {q x n}, (s'.procs q).appends = some (x, n) →
      (q = p ∧ n = s.nextSeq) ∨ (q ≠ p ∧ n ≠ s.nextSeq ∧ (s.procs q).appends = some (x, n)) := by
    intro q x n hq
    rw [hprocs] at hq
    by_cases hqp : q = p
    · subst hqp
      rw [Function.update_self] at hq
      cases hq
      exact .inl ⟨rfl, rfl⟩
    · rw [Function.update_of_ne hqp] at hq
      exact .inr ⟨hqp, (hput (howned hq)).2, hq⟩
  have hfinished : ∀ n x, s.given n = some x → s.Finished n → s'.Finished n := by
    intro n x hx hn q y hq
    rcases hold hq with ⟨-, hn'⟩ | ⟨-, -, hq⟩
    · exact (hput hx).2 hn'
    · exact hn q y hq
  refine ⟨by omega, ?_, ?_, ?_, ?_, ?_, ?_, ?_⟩
  · intro n hn
    rw [hgiven, PMap.put_of_ne _ _ (by omega)]
    exact h.fresh n (by omega)
  · intro a b x y n ha hb
    rcases hold ha with ⟨hap, han⟩ | ⟨-, han, ha⟩ <;> rcases hold hb with ⟨hbp, hbn⟩ | ⟨-, hbn, hb⟩
    · rw [hap, hbp]
    · exact absurd han hbn
    · exact absurd hbn han
    · exact h.one a b x y n ha hb
  · have hwrites : ∀ {q a}, (s'.procs q).writes = some a → (s.procs q).writes = some a := by
      intro q a hq
      rw [hprocs] at hq
      by_cases hqp : q = p
      · subst hqp
        rw [Function.update_self] at hq
        cases hq
      · rwa [Function.update_of_ne hqp] at hq
    exact fun a b x y m n ha hb => h.alone a b x y m n (hwrites ha) (hwrites hb)
  · rw [hslots]
    exact h.body_length
  · intro i hi
    rw [hslots] at hi ⊢
    obtain ⟨x, hx, hf, hrest⟩ := h.settled i hi
    exact ⟨x, (hput hx).1, hfinished _ x hx hf, hrest⟩
  · intro q
    by_cases hqp : q = p
    · subst hqp
      rw [hprocs, Function.update_self]
      exact ⟨by simp [hgiven], hpos⟩
    · rw [hprocs, Function.update_of_ne hqp]
      exact (h.ok q).frame (fun _ _ hx => (hput hx).1) hfinished (fun _ _ _ => by rw [hslots])
        fun _ _ _ ht => by rwa [hslots] at ht
  · intro e he
    have hret : s'.returned = s.returned := by rw [← hs']; rfl
    rw [hret] at he
    exact (hput (h.answered e he)).1

/-- A slot under the stamp of a number holds the record given for it. -/
theorem Sound.stamped (h : s.Sound cap) {seq : Nat} (hpos : 0 < seq)
    (htail : (s.slots (slotAt cap seq)).tail = seq) :
    s.Finished seq ∧ ∃ r, s.given seq = some r ∧ (s.slots (slotAt cap seq)).body = r.encode := by
  have hne : (s.slots (slotAt cap seq)).tail ≠ 0 := by omega
  obtain ⟨r, hr, hfin, -, hbody⟩ := h.settled _ hne
  rw [htail] at hr hfin
  exact ⟨hfin, r, hr, hbody⟩

@[simp] theorem slots_setProc_setSlot (s : Ring) (i p : Nat) (slot : Slot) (proc : Proc) :
    ((s.setSlot i slot).setProc p proc).slots i = slot :=
  Function.update_self ..

theorem Sound.others (h : s.Sound cap) {r : MpjRec} {seq : Nat} (hwrites : (s.procs p).writes = some (r, seq)) :
    ∀ q ≠ p, ∀ r' seq', (s.procs q).writes = some (r', seq') → slotAt cap seq' ≠ slotAt cap seq :=
  fun q hq r' seq' hw heq => hq (h.alone q p r' r seq' seq hw hwrites heq)

theorem take_set_succ {xs ys : List UInt8} {k : Nat} (hk : k < xs.length) (hlen : xs.length = ys.length)
    (h : xs.take k = ys.take k) : (xs.set k (ys.getD k 0)).take (k + 1) = ys.take (k + 1) := by
  have hky : k < ys.length := by omega
  have hset : (xs.set k (ys.getD k 0)).take k = xs.take k := List.take_set_of_le le_rfl
  have hself : (xs.set k (ys.getD k 0))[k]? = ys[k]? := by
    simp [hk, hky]
  rw [List.take_add_one, List.take_add_one, hset, h, hself]

theorem Sound.writeByte (h : s.Sound cap) {r : MpjRec} {seq k : Nat} (hproc : s.procs p = .writeByte r seq k) :
    ((s.setSlot (slotAt cap seq) { s.slots (slotAt cap seq) with
        body := (s.slots (slotAt cap seq)).body.set k (r.encode.getD k 0) }).setProc p
      (if k + 1 < bodyBytes then .writeByte r seq (k + 1) else .stampTail r seq)).Sound cap := by
  have hok := h.ok p
  rw [hproc] at hok
  obtain ⟨howns, htail, hhead, hk, htake⟩ := hok
  have hlen := h.body_length (slotAt cap seq)
  have hbody := take_set_succ (hlen ▸ hk) (hlen.trans r.length_encode.symm) htake
  have hlen' : ((s.slots (slotAt cap seq)).body.set k (r.encode.getD k 0)).length = bodyBytes := by
    rw [List.length_set, hlen]
  have hothers := h.others (show (s.procs p).writes = some (r, seq) by rw [hproc]; rfl)
  have happends : (s.procs p).appends = some (r, seq) := by rw [hproc]; rfl
  split
  case isTrue hlt =>
    refine h.store happends rfl rfl htail hlen' hothers ?_
    simp only [Ok, slots_setProc_setSlot]
    exact ⟨howns, htail, hhead, hlt, hbody⟩
  case isFalse hge =>
    have hlast : k + 1 = bodyBytes := by omega
    rw [List.take_of_length_le (by omega), List.take_of_length_le (by rw [r.length_encode]; omega)] at hbody
    refine h.store happends rfl rfl htail hlen' hothers ?_
    simp only [Ok, slots_setProc_setSlot]
    exact ⟨howns, htail, hhead, hbody⟩

theorem Sound.copyByte (h : s.Sound cap) {seq : Nat} {buf : List UInt8} (hproc : s.procs p = .copyByte seq buf) :
    s.Copied cap seq (buf ++ [(s.slots (slotAt cap seq)).body.getD buf.length 0]) := by
  have hok := h.ok p
  rw [hproc] at hok
  obtain ⟨⟨hpos, hfin, r, hr, hbuf⟩, hlen⟩ := hok
  refine ⟨hpos, hfin, r, hr, ?_⟩
  intro htail
  obtain ⟨-, r', hr', hbody⟩ := h.stamped hpos htail
  obtain rfl : r = r' := by rw [hr] at hr'; exact Option.some_inj.mp hr'
  have hlen' : buf.length < r.encode.length := by rwa [r.length_encode]
  rw [hbody, List.length_append, List.length_singleton, List.take_add_one]
  simp [← hbuf htail, hlen']

/-- What one load or store keeps. -/
theorem Sound.next (h : s.Sound cap) (hapart : Apart cap s (.next p)) {s' : Ring}
    (hnext : s.next cap p = some s') : s'.Sound cap := by
  have hok := h.ok p
  unfold Ring.next at hnext
  cases hproc : s.procs p with
  | idle => simp [hproc] at hnext
  | dead => simp [hproc] at hnext
  | zeroTail r seq =>
      simp only [hproc, Option.some.injEq] at hnext hok
      subst hnext
      refine h.store (by rw [hproc]; rfl) rfl rfl rfl (h.body_length _) ?_ ?_
      · exact fun q _ r' seq' hq => hapart r seq hproc q r' seq' hq
      · simp only [Ok, slots_setProc_setSlot]
        exact ⟨hok, trivial⟩
  | stampHead r seq =>
      simp only [hproc, Option.some.injEq] at hnext hok
      subst hnext
      obtain ⟨howns, htail⟩ := hok
      refine h.store (by rw [hproc]; rfl) rfl rfl htail (h.body_length _) ?_ ?_
      · exact h.others (by rw [hproc]; rfl)
      · simp only [Ok, slots_setProc_setSlot]
        exact ⟨howns, htail, trivial, by decide, rfl⟩
  | writeByte r seq k =>
      simp only [hproc, Option.some.injEq] at hnext
      subst hnext
      exact h.writeByte hproc
  | stampTail r seq =>
      simp only [hproc, Option.some.injEq] at hnext
      subst hnext
      exact h.lastStore hproc
  | checkTail seq =>
      simp only [hproc, Option.some.injEq] at hnext hok
      subst hnext
      split
      case isTrue htail =>
        obtain ⟨hfin, r, hr, -⟩ := h.stamped hok htail
        exact h.setProc p rfl ⟨⟨hok, hfin, r, hr, fun _ => by simp⟩, by decide⟩
      case isFalse => exact h.setProc p rfl trivial
  | copyByte seq buf =>
      have hcopied := h.copyByte hproc
      simp only [hproc, Option.some.injEq] at hnext hok
      subst hnext
      have hlen := hok.2
      split
      case isTrue hlt => exact h.setProc p rfl ⟨hcopied, hlt⟩
      case isFalse hge =>
        refine h.setProc p rfl ⟨hcopied, ?_⟩
        simp only [List.length_append, List.length_singleton] at hge ⊢
        omega
  | recheckTail seq buf =>
      simp only [hproc, Option.some.injEq] at hnext hok
      subst hnext
      obtain ⟨⟨-, -, r, hr, hbuf⟩, hlen⟩ := hok
      split
      case isTrue htail =>
        refine h.setProc p rfl ⟨r, hr, ?_⟩
        rw [hbuf htail, hlen, ← r.length_encode, List.take_length]
      case isFalse => exact h.setProc p rfl trivial
  | recheckHead seq buf =>
      simp only [hproc] at hnext hok
      have hidle : (s.setProc p .idle).Sound cap := h.setProc p rfl trivial
      split at hnext
      · cases hnext
        obtain ⟨r, hr, rfl⟩ := hok
        refine ⟨hidle.seq_pos, hidle.fresh, hidle.one, hidle.alone, hidle.body_length, hidle.settled, ?_, ?_⟩
        · exact fun q => (hidle.ok q).frame (fun _ _ hx => hx) (fun _ _ _ hf => hf) (fun _ _ _ => rfl)
            fun _ _ _ ht => ht
        · intro e he
          rcases List.mem_cons.mp he with rfl | he
          · rw [MpjRec.decode_encode]
            exact hr
          · exact h.answered e he
      · cases hnext
        exact hidle

theorem Sound.step (h : s.Sound cap) {a : Action} (hapart : Apart cap s a) {s' : Ring}
    (hstep : s.step cap a = some s') : s'.Sound cap := by
  cases a with
  | append p r =>
      cases hproc : s.procs p <;> simp only [Ring.step, hproc, reduceCtorEq] at hstep
      split at hstep
      · cases hstep
        exact h
      · cases hstep
        exact h.takeSeq hproc r
  | read p seq =>
      cases hproc : s.procs p <;> simp only [Ring.step, hproc, reduceCtorEq] at hstep
      split at hstep
      · cases hstep
      · cases hstep
        exact h.setProc p rfl (Nat.pos_of_ne_zero ‹_›)
  | next p => exact h.next hapart hstep
  | die p =>
      cases hstep
      exact h.setProc p rfl trivial

end Steps

theorem Sound.run {cap : Nat} {acts : List Action} {s s' : Ring} (h : s.Sound cap) (hapart : ApartRun cap acts s)
    (hrun : run cap acts s = some s') : s'.Sound cap := by
  induction acts generalizing s with
  | nil =>
      cases hrun
      exact h
  | cons a as ih =>
      simp only [Ring.run] at hrun
      cases hstep : s.step cap a with
      | none => simp [hstep] at hrun
      | some t =>
          simp only [hstep] at hrun
          exact ih (h.step hapart.1 hstep) (hapart.2 t hstep) hrun

theorem procs_step_of_ne {cap : Nat} {s s' : Ring} {a : Action} {q : Nat} (hq : q ≠ a.proc)
    (hstep : s.step cap a = some s') : s'.procs q = s.procs q := by
  cases a with
  | append p r =>
      cases hproc : s.procs p <;> simp only [step, hproc, reduceCtorEq] at hstep
      split at hstep <;> cases hstep
      · rfl
      · exact Function.update_of_ne hq ..
  | read p seq =>
      cases hproc : s.procs p <;> simp only [step, hproc, reduceCtorEq] at hstep
      split at hstep <;> cases hstep
      exact Function.update_of_ne hq ..
  | next p =>
      simp only [step, next] at hstep
      cases hproc : s.procs p <;> simp only [hproc, reduceCtorEq] at hstep
      case recheckHead =>
        split at hstep <;> cases hstep <;> exact Function.update_of_ne hq ..
      all_goals
        cases hstep
        exact Function.update_of_ne hq ..
  | die p =>
      cases hstep
      exact Function.update_of_ne hq ..

/-- The appends of one process are apart. -/
theorem apartRun_of_one {cap p : Nat} {acts : List Action} {s : Ring} (hacts : ∀ a ∈ acts, a.proc = p)
    (hidle : ∀ q ≠ p, s.procs q = .idle) : ApartRun cap acts s := by
  induction acts generalizing s with
  | nil => trivial
  | cons a as ih =>
      have ha : a.proc = p := hacts a (List.mem_cons_self ..)
      refine ⟨?_, fun s' hstep => ih (fun b hb => hacts b (List.mem_cons_of_mem _ hb)) fun q hq => ?_⟩
      · cases a with
        | next p' =>
            intro r seq hproc q r' seq' hw
            by_cases hqp : q = p
            · rw [hqp, ← ha, show s.procs (Action.next p').proc = .zeroTail r seq from hproc] at hw
              cases hw
            · rw [hidle q hqp] at hw
              cases hw
        | append => trivial
        | read => trivial
        | die => trivial
      · rw [procs_step_of_ne (ha ▸ hq) hstep, hidle q hq]

/-! ## An append and a read that nothing interrupts -/

section Uninterrupted

variable {cap : Nat} {s : Ring} {p : Nat}

theorem run_of_step {s' : Ring} {a : Action} (h : s.step cap a = some s') (rest : List Action) :
    run cap (a :: rest) s = run cap rest s' := by
  rw [run, h]

@[simp] theorem procs_setProc (s : Ring) (p : Nat) (proc : Proc) : (s.setProc p proc).procs p = proc :=
  Function.update_self ..

@[simp] theorem setProc_setProc (s : Ring) (p : Nat) (proc proc' : Proc) :
    (s.setProc p proc).setProc p proc' = s.setProc p proc' := by
  simp [setProc]

@[simp] theorem setSlot_setProc_setSlot (s : Ring) (i p : Nat) (slot slot' : Slot) (proc : Proc) :
    ((s.setSlot i slot).setProc p proc).setSlot i slot' = (s.setSlot i slot').setProc p proc := by
  simp [setSlot, setProc]

/-- Bytes of which the first `k` are a record's. -/
def overlay (r : MpjRec) (old : List UInt8) (k : Nat) : List UInt8 := r.encode.take k ++ old.drop k

theorem set_overlay (r : MpjRec) {old : List UInt8} {k : Nat} (hk : k < bodyBytes)
    (hold : old.length = bodyBytes) :
    (overlay r old k).set k (r.encode.getD k 0) = overlay r old (k + 1) := by
  have hlen : k < r.encode.length := by rwa [r.length_encode]
  have htake : (r.encode.take k).length = k := by rw [List.length_take]; omega
  have hget : r.encode.getD k 0 = r.encode[k] := by simp [hlen]
  unfold overlay
  rw [List.set_append_right _ _ htake.le, htake, Nat.sub_self,
    List.drop_eq_getElem_cons (show k < old.length by omega), List.set_cons_zero, hget,
    List.take_succ_eq_append_getElem hlen, List.append_assoc, List.singleton_append]

theorem overlay_all (r : MpjRec) {old : List UInt8} (hold : old.length = bodyBytes) :
    overlay r old bodyBytes = r.encode := by
  unfold overlay
  rw [List.take_of_length_le r.length_encode.le, List.drop_of_length_le hold.le, List.append_nil]

theorem length_overlay (r : MpjRec) {old : List UInt8} {k : Nat} (hk : k ≤ bodyBytes)
    (hold : old.length = bodyBytes) : (overlay r old k).length = bodyBytes := by
  unfold overlay
  rw [List.length_append, List.length_take, List.length_drop, r.length_encode, hold]
  omega

/-- An append has stamped the head and written `k` bytes. -/
def writing (cap : Nat) (s : Ring) (p : Nat) (r : MpjRec) (seq : Nat) (old : List UInt8) (k : Nat) : Ring :=
  (s.setSlot (slotAt cap seq) ⟨seq, 0, overlay r old k⟩).setProc p (.writeByte r seq k)

theorem step_writing (r : MpjRec) (seq : Nat) {old : List UInt8} (hold : old.length = bodyBytes) {k : Nat}
    (hk : k + 1 < bodyBytes) :
    (writing cap s p r seq old k).step cap (.next p) = some (writing cap s p r seq old (k + 1)) := by
  have hbody := set_overlay r (show k < bodyBytes by omega) hold
  simp only [step, next, writing, procs_setProc, slots_setProc_setSlot, setSlot_setProc_setSlot,
    setProc_setProc, hbody, if_pos hk]

/-- The last byte of a record, whatever the slot holds by then. -/
theorem step_lastByte {r : MpjRec} {seq head tail : Nat} {body : List UInt8}
    (hproc : s.procs p = .writeByte r seq 135) (hslot : s.slots (slotAt cap seq) = ⟨head, tail, body⟩) :
    s.step cap (.next p) = some ((s.setSlot (slotAt cap seq)
      ⟨head, tail, body.set 135 (r.encode.getD 135 0)⟩).setProc p (.stampTail r seq)) := by
  simp only [step, next, hproc, hslot]
  rfl

theorem run_writing (r : MpjRec) (seq : Nat) {old : List UInt8} (hold : old.length = bodyBytes) {n : Nat}
    (hn : n < bodyBytes) (rest : List Action) :
    run cap (List.replicate n (.next p) ++ rest) (writing cap s p r seq old 0) =
      run cap rest (writing cap s p r seq old n) := by
  induction n generalizing rest with
  | zero => rfl
  | succ n ih =>
      rw [List.replicate_succ', List.append_assoc, ih (by omega)]
      exact run_of_step (step_writing r seq hold hn) rest

section Append

variable {r : MpjRec} (hidle : s.procs p = .idle) (hseq : 0 < s.nextSeq)
  (hreason : badReason r.reason = false) (hlen : (s.slots (slotAt cap s.nextSeq)).body.length = bodyBytes)

include hidle hseq hreason hlen

theorem run_append_upto {n : Nat} (hn : n < bodyBytes) (rest : List Action) :
    run cap (.append p r :: .next p :: .next p :: (List.replicate n (.next p) ++ rest)) s =
      run cap rest
        (writing cap (s.takeSeq p r) p r s.nextSeq (s.slots (slotAt cap s.nextSeq)).body n) := by
  have htaken : s.takeSeq p r = (s.takeSeq p r).setProc p (.zeroTail r s.nextSeq) := by
    simp [takeSeq, setProc, hseq.ne']
  have hstart : (s.takeSeq p r).procs p = .zeroTail r s.nextSeq := by
    rw [htaken, procs_setProc]
  have hslots : (s.takeSeq p r).slots = s.slots := rfl
  have hover : overlay r (s.slots (slotAt cap s.nextSeq)).body 0 =
      (s.slots (slotAt cap s.nextSeq)).body := rfl
  rw [run_of_step (show s.step cap (.append p r) = some (s.takeSeq p r) by simp [step, hidle, hreason])]
  rw [run_of_step (show (s.takeSeq p r).step cap (.next p) = _ by simp only [step, next, hstart, hslots]; rfl)]
  rw [run_of_step (show _ = some (writing cap (s.takeSeq p r) p r s.nextSeq
      (s.slots (slotAt cap s.nextSeq)).body 0) by
    simp only [step, next, writing, procs_setProc, slots_setProc_setSlot, setSlot_setProc_setSlot,
      setProc_setProc, hover])]
  exact run_writing r s.nextSeq hlen hn rest

/-- The record is in the slot, between two stamps of its number. -/
theorem run_append_whole (rest : List Action) :
    run cap (.append p r :: (List.replicate 139 (.next p) ++ rest)) s =
      run cap rest (((s.takeSeq p r).setSlot (slotAt cap s.nextSeq)
        ⟨s.nextSeq, s.nextSeq, r.encode⟩).setProc p .idle) := by
  have hsplit : List.replicate 139 (Action.next p) ++ rest =
      .next p :: .next p :: (List.replicate 135 (.next p) ++ .next p :: .next p :: rest) := by
    rw [show 139 = 1 + 1 + 135 + 2 from rfl, List.replicate_add]
    simp [List.replicate_succ]
  have hbody : (overlay r (s.slots (slotAt cap s.nextSeq)).body 135).set 135 (r.encode.getD 135 0) =
      r.encode := by
    rw [set_overlay r (by decide) hlen]
    exact overlay_all r hlen
  rw [hsplit, run_append_upto hidle hseq hreason hlen (by decide), writing,
    run_of_step (step_lastByte (procs_setProc ..) (slots_setProc_setSlot ..)), hbody,
    setSlot_setProc_setSlot, setProc_setProc]
  refine run_of_step ?_ rest
  simp only [step, next, procs_setProc, slots_setProc_setSlot, setSlot_setProc_setSlot, setProc_setProc]

end Append

theorem run_copying {seq : Nat} {slot : Slot} (hslot : s.slots (slotAt cap seq) = slot)
    (hlen : slot.body.length = bodyBytes) {n : Nat} (hn : n < bodyBytes) (rest : List Action) :
    run cap (List.replicate n (.next p) ++ rest) (s.setProc p (.copyByte seq [])) =
      run cap rest (s.setProc p (.copyByte seq (slot.body.take n))) := by
  induction n generalizing rest with
  | zero => rfl
  | succ n ih =>
      have hnext : slot.body.take n ++ [slot.body.getD (slot.body.take n).length 0] =
          slot.body.take (n + 1) := by
        have hn' : n < slot.body.length := by omega
        rw [List.take_add_one, List.length_take, Nat.min_eq_left hn'.le]
        simp [hn']
      rw [List.replicate_succ', List.append_assoc, ih (by omega)]
      refine run_of_step ?_ rest
      have hshort : (slot.body.take (n + 1)).length < bodyBytes := by
        rw [List.length_take]
        omega
      have hslots : (s.setProc p (.copyByte seq (slot.body.take n))).slots (slotAt cap seq) = slot := hslot
      simp only [step, next, procs_setProc, hslots, hnext, if_pos hshort, setProc_setProc]

theorem run_read_whole {seq : Nat} (hidle : s.procs p = .idle) (hpos : 0 < seq) {body : List UInt8}
    (hslot : s.slots (slotAt cap seq) = ⟨seq, seq, body⟩) (hlen : body.length = bodyBytes)
    (hreason : badReason (MpjRec.decode body).reason = false) (rest : List Action) :
    run cap (.read p seq :: (List.replicate 139 (.next p) ++ rest)) s =
      run cap rest { s.setProc p .idle with returned := (seq, MpjRec.decode body) :: s.returned } := by
  have hsplit : List.replicate 139 (Action.next p) ++ rest =
      .next p :: (List.replicate 135 (.next p) ++ .next p :: .next p :: .next p :: rest) := by
    rw [show 139 = 1 + 135 + 3 from rfl, List.replicate_add]
    simp [List.replicate_succ]
  have hslots : ∀ proc, (s.setProc p proc).slots (slotAt cap seq) = ⟨seq, seq, body⟩ := fun _ => hslot
  have hlast : body.take 135 ++ [body.getD (body.take 135).length 0] = body := by
    have h135 : 135 < body.length := by rw [hlen]; decide
    have hget : body.getD 135 0 = body[135] := by simp [h135]
    rw [List.length_take, Nat.min_eq_left h135.le, hget, ← List.take_succ_eq_append_getElem h135]
    exact List.take_of_length_le hlen.le
  rw [hsplit, run_of_step (show s.step cap (.read p seq) = some (s.setProc p (.checkTail seq)) by
    simp [step, hidle, hpos.ne'])]
  rw [run_of_step (show _ = some (s.setProc p (.copyByte seq [])) by
    simp only [step, next, procs_setProc, hslots, setProc_setProc, if_true])]
  rw [run_copying hslot hlen (by decide)]
  rw [run_of_step (show _ = some (s.setProc p (.recheckTail seq body)) by
    simp only [step, next, procs_setProc, hslots, hlast, setProc_setProc, hlen, lt_irrefl, if_false])]
  rw [run_of_step (show _ = some (s.setProc p (.recheckHead seq body)) by
    simp only [step, next, procs_setProc, hslots, setProc_setProc, if_true])]
  refine run_of_step ?_ rest
  simp only [step, next, procs_setProc, hslots, hreason, setProc_setProc, and_self, if_true]
  rfl

end Uninterrupted

/-- A record whose fields are zero up to its reason, which is that of a block. -/
def recOf (height : UInt32) : MpjRec :=
  ⟨Bytes.ofList 32 [], Bytes.ofList 32 [], Bytes.ofList 32 [], 0, 0, 0, 0, 1, height⟩

/-- One process appends twice to a ring of one slot and reads the second record. -/
def wrapped : List Action :=
  .append 0 (recOf 1) :: List.replicate 139 (.next 0) ++
    .append 0 (recOf 2) :: List.replicate 139 (.next 0) ++ .read 0 2 :: List.replicate 139 (.next 0)

theorem wrapped_returns : (run 1 wrapped init).map (·.returned) = some [(2, recOf 2)] := by
  rw [wrapped, List.append_assoc, List.cons_append, List.cons_append,
    run_append_whole rfl Nat.one_pos rfl (List.length_replicate ..),
    run_append_whole rfl Nat.two_pos rfl (MpjRec.length_encode _),
    ← List.append_nil (List.replicate 139 (Action.next 0)),
    run_read_whole rfl Nat.two_pos rfl (MpjRec.length_encode _) (by rw [MpjRec.decode_encode]; rfl),
    MpjRec.decode_encode]
  rfl

/-- A writer stops before the last byte of its record, is lapped, and goes on when the slot
has the stamps of the one that lapped it. -/
def lapped : List Action :=
  .append 0 (recOf 0x1000000) :: List.replicate 137 (.next 0) ++
    .append 1 (recOf 0) :: List.replicate 139 (.next 1) ++
      .next 0 :: .read 1 2 :: List.replicate 139 (.next 1)

theorem lapped_returns : (run 1 lapped init).map (fun s => (s.returned, s.given 2)) =
      some ([(2, recOf 0x1000000)], some (recOf 0)) := by
  -- the last byte is that of the first record, and it is the only one in which they differ
  have hmixed : (recOf 0).encode.set 135 ((recOf 0x1000000).encode.getD 135 0) =
      (recOf 0x1000000).encode := rfl
  rw [lapped, List.append_assoc, List.cons_append, List.cons_append,
    show List.replicate 137 (Action.next 0) = .next 0 :: .next 0 :: List.replicate 135 (.next 0) from rfl,
    List.cons_append, List.cons_append, run_append_upto rfl Nat.one_pos rfl (List.length_replicate ..)
      (by decide),
    run_append_whole rfl Nat.two_pos rfl (length_overlay _ (by decide) (List.length_replicate ..)),
    run_of_step (step_lastByte rfl (show _ = Slot.mk 2 2 (recOf 0).encode from rfl)), hmixed, ← List.append_nil (List.replicate 139 (Action.next 1)),
    run_read_whole rfl Nat.two_pos rfl (MpjRec.length_encode _) (by rw [MpjRec.decode_encode]; rfl),
    MpjRec.decode_encode]
  rfl

end Ring

end BitcoinMachineCode.Mempool.Journal
