import BitcoinMachineCode.Consensus.Multisig
import BitcoinMachineCode.Consensus.Sha256
import Mathlib.Algebra.Module.Basic
import Mathlib.Algebra.BigOperators.Group.Finset.Basic
import Mathlib.Data.ZMod.Basic
import Mathlib.Tactic.Module

/-!
# MuSig2

`musig2.c`: key aggregation with tweaks, nonces, partial signatures and their aggregate, over
exact group arithmetic.  The group is the curve's with the point at infinity as zero, and the
scalars are the numbers modulo its order.  The tagged hash is any function.
-/

namespace BitcoinMachineCode.Wallet

open Foundation Consensus

instance : NeZero orderN := ⟨by decide⟩

abbrev Scalar : Type := ZMod orderN

/-- The points with what the code reads of them: the parity of the second coordinate, the bytes
of the first, and the compressed form. -/
structure Curve (E : Type) [AddCommGroup E] [Module Scalar E] where
  g : E
  evenY : E → Bool
  x : E → List UInt8
  /-- `pt_from_bytes` -/
  fromBytes : List UInt8 → Option E
  g_free : ∀ k : Scalar, k • g = 0 → k = 0
  evenY_neg : ∀ P, P ≠ 0 → evenY (-P) = !evenY P
  x_neg : ∀ P, x (-P) = x P
  x_length : ∀ P, (x P).length = 32
  fromBytes_eq_some : ∀ c P, fromBytes c = some P → P ≠ 0 ∧ c = (if evenY P then 2 else 3) :: x P
  fromBytes_toBytes : ∀ P, P ≠ 0 → fromBytes ((if evenY P then 2 else 3) :: x P) = some P

/-! ## Scalars and points as bytes -/

def scFromBe (be : List UInt8) : Option Scalar :=
  if beVal be < orderN then some (beVal be : Scalar) else none

def hashToSc (h : List UInt8) : Scalar := (beVal h : Scalar)

def scToBe (k : Scalar) : List UInt8 := Sha256.beBytes 32 k.val

section Points

variable {E : Type} [AddCommGroup E] [Module Scalar E] [DecidableEq E] (c : Curve E)

def Curve.toBytes (P : E) : List UInt8 := (if c.evenY P then 2 else 3) :: c.x P

def infBytes : List UInt8 := List.replicate 33 0

def Curve.toBytesExt (P : E) : List UInt8 := if P = 0 then infBytes else c.toBytes P

def Curve.fromBytesExt (bytes : List UInt8) : Option E :=
  if bytes = infBytes then some 0 else c.fromBytes bytes

/-- One, or minus one for a point with an odd second coordinate. -/
def Curve.sign (P : E) : Scalar := if c.evenY P then 1 else -1

/-! ## Keys -/

structure Keyagg (E : Type) where
  pks : List (List UInt8)
  L : List UInt8
  pk2 : List UInt8
  Q : E
  gacc : Scalar
  tacc : Scalar

variable (tagged : String → List UInt8 → List UInt8)

def keyaggCoeff (L pk2 pk : List UInt8) : Scalar :=
  if pk = pk2 then 1 else hashToSc (tagged "KeyAgg coefficient" (L ++ pk))

/-- The first key that differs from the first. -/
def secondKey (pks : List (List UInt8)) : List UInt8 :=
  (pks.tail.find? fun pk => decide (pk ≠ pks.headD [])).getD infBytes

def aggKeys (L pk2 : List UInt8) : List (List UInt8) → E → Option E
  | [], Q => some Q
  | pk :: pks, Q =>
      match c.fromBytes pk with
      | none => none
      | some P => aggKeys L pk2 pks (Q + keyaggCoeff tagged L pk2 pk • P)

def musig2MaxKeys : Nat := 32

def musig2KeyAgg (pks : List (List UInt8)) : Option (Keyagg E) :=
  if pks.length < 1 ∨ musig2MaxKeys < pks.length then none
  else
    let L := tagged "KeyAgg list" pks.flatten
    let pk2 := secondKey pks
    match aggKeys c tagged L pk2 pks 0 with
    | none => none
    | some Q => if Q = 0 then none else some ⟨pks, L, pk2, Q, 1, 0⟩

def musig2Tweak (ka : Keyagg E) (t : List UInt8) (xonly : Bool) : Option (Keyagg E) :=
  match scFromBe t with
  | none => none
  | some T =>
      let g : Scalar := if xonly && !c.evenY ka.Q then -1 else 1
      let Q := g • ka.Q + T • c.g
      if Q = 0 then none
      else some { ka with Q := Q, gacc := g * ka.gacc, tacc := T + g * ka.tacc }

/-- The tweaks one after the other, as long as they succeed. -/
def applyTweaks (c : Curve E) : List (List UInt8 × Bool) → Keyagg E → Option (Keyagg E)
  | [], ka => some ka
  | t :: tweaks, ka =>
      match musig2Tweak c ka t.1 t.2 with
      | none => none
      | some ka => applyTweaks c tweaks ka

def tweakedKey (pks : List (List UInt8)) (tweaks : List (List UInt8 × Bool)) : Option (Keyagg E) :=
  (musig2KeyAgg c tagged pks).bind (applyTweaks c tweaks)

/-! ## Nonces and the session -/

def sumNonces (c : Curve E) : List (List UInt8) → E → Option E
  | [], R => some R
  | pn :: pns, R =>
      match c.fromBytes pn with
      | none => none
      | some P => sumNonces c pns (R + P)

def musig2NonceAgg (pns : List (List UInt8)) : Option (List UInt8) :=
  match sumNonces c (pns.map (List.take 33)) 0, sumNonces c (pns.map (List.drop 33)) 0 with
  | some R1, some R2 => some (c.toBytesExt R1 ++ c.toBytesExt R2)
  | _, _ => none

def nonceCoeff (ka : Keyagg E) (aggnonce msg : List UInt8) : Scalar :=
  hashToSc (tagged "MuSig/noncecoef" (aggnonce ++ c.x ka.Q ++ msg))

/-- The nonce of the signature before the point at infinity is replaced. -/
def finalNonce (ka : Keyagg E) (aggnonce msg : List UInt8) : Option E :=
  match c.fromBytesExt (aggnonce.take 33), c.fromBytesExt (aggnonce.drop 33) with
  | some R1, some R2 => some (R1 + nonceCoeff c tagged ka aggnonce msg • R2)
  | _, _ => none

structure Session (E : Type) where
  b : Scalar
  e : Scalar
  R : E

def challenge (r qx msg : List UInt8) : Scalar :=
  hashToSc (tagged "BIP0340/challenge" (r ++ qx ++ msg))

def musig2Session (ka : Keyagg E) (aggnonce msg : List UInt8) : Option (Session E) :=
  match finalNonce c tagged ka aggnonce msg with
  | none => none
  | some R =>
      if 4096 < msg.length then none
      else
        let R := if R = 0 then c.g else R
        some ⟨nonceCoeff c tagged ka aggnonce msg, challenge tagged (c.x R) (c.x ka.Q) msg, R⟩

/-! ## Partial signatures -/

def sessionCoeff (ka : Keyagg E) (pk : List UInt8) : Option Scalar :=
  if pk ∈ ka.pks then some (keyaggCoeff tagged ka.L ka.pk2 pk) else none

def verifyInternal (sc : Scalar) (pubnonce pk : List UInt8) (ka : Keyagg E) (s : Session E) : Bool :=
  match c.fromBytes (pubnonce.take 33), c.fromBytes (pubnonce.drop 33), c.fromBytes pk,
      sessionCoeff tagged ka pk with
  | some R1, some R2, some P, some a =>
      let Re := if c.evenY s.R then R1 + s.b • R2 else -(R1 + s.b • R2)
      decide (sc • c.g = Re + (s.e * a * (c.sign ka.Q * ka.gacc)) • P)
  | _, _, _, _ => false

/-- A secret scalar, which is not zero. -/
def secretSc (be : List UInt8) : Option Scalar := (scFromBe be).filter (· ≠ 0)

def musig2PartialSign (secnonce sk : List UInt8) (ka : Keyagg E) (s : Session E) : Option (List UInt8) :=
  match secretSc (secnonce.take 32), secretSc ((secnonce.drop 32).take 32), secretSc sk with
  | some k1, some k2, some d0 =>
      let k1' := if c.evenY s.R then k1 else -k1
      let k2' := if c.evenY s.R then k2 else -k2
      let pk := c.toBytes (d0 • c.g)
      if pk ≠ (secnonce.drop 64).take 33 then none
      else
        match sessionCoeff tagged ka pk with
        | none => none
        | some a =>
            let d := c.sign ka.Q * ka.gacc * d0
            let sc := k1' + s.b * k2' + s.e * a * d
            let pn := c.toBytes (k1 • c.g) ++ c.toBytes (k2 • c.g)
            if verifyInternal c tagged sc pn pk ka s then some (scToBe sc) else none
  | _, _, _ => none

def musig2PartialSigVerify (psig pubnonce pk : List UInt8) (ka : Keyagg E) (s : Session E) : Bool :=
  match scFromBe psig with
  | none => false
  | some sc => verifyInternal c tagged sc pubnonce pk ka s

def sumSigs : List (List UInt8) → Scalar → Option Scalar
  | [], acc => some acc
  | psig :: psigs, acc =>
      match scFromBe psig with
      | none => none
      | some si => sumSigs psigs (acc + si)

def musig2PartialSigAgg (s : Session E) (ka : Keyagg E) (psigs : List (List UInt8)) :
    Option (List UInt8) :=
  match sumSigs psigs 0 with
  | none => none
  | some acc => some (c.x s.R ++ scToBe (acc + s.e * c.sign ka.Q * ka.tacc))

/-! ## The signature scheme it makes signatures for -/

/-- The BIP340 equation: both points are those with the even second coordinate. -/
def Bip340 (pk32 msg sig : List UInt8) : Prop :=
  ∃ P R s, c.fromBytes (2 :: pk32) = some P ∧ c.fromBytes (2 :: sig.take 32) = some R ∧
    scFromBe (sig.drop 32) = some s ∧ s • c.g = R + challenge tagged (sig.take 32) pk32 msg • P

/-! ## The accumulators -/

/-- The point of some bytes, zero for none. -/
def Curve.point (bytes : List UInt8) : E := (c.fromBytes bytes).getD 0

/-- The keys with their coefficients. -/
def keySum (L pk2 : List UInt8) (pks : List (List UInt8)) : E :=
  (pks.map fun pk => keyaggCoeff tagged L pk2 pk • c.point pk).sum

def pointSum (bytes : List (List UInt8)) : E := (bytes.map c.point).sum

/-- The aggregate is made of the keys and the generator by the two accumulators. -/
structure Keyagg.Sound (ka : Keyagg E) : Prop where
  ne_zero : ka.Q ≠ 0
  eq : ka.Q = ka.gacc • keySum c tagged ka.L ka.pk2 ka.pks + ka.tacc • c.g

variable {c tagged}

omit [DecidableEq E] in
theorem aggKeys_eq_some {L pk2 : List UInt8} {pks : List (List UInt8)} {Q Q' : E}
    (h : aggKeys c tagged L pk2 pks Q = some Q') : Q' = Q + keySum c tagged L pk2 pks := by
  induction pks generalizing Q with
  | nil =>
      obtain rfl := Option.some.inj h
      simp [keySum]
  | cons pk pks ih =>
      rw [aggKeys] at h
      cases hpk : c.fromBytes pk with
      | none => simp [hpk] at h
      | some P =>
          rw [hpk] at h
          rw [ih h]
          simp [keySum, Curve.point, hpk, add_assoc]

omit [DecidableEq E] in
theorem sumNonces_eq_some {pns : List (List UInt8)} {R R' : E} (h : sumNonces c pns R = some R') :
    R' = R + pointSum c pns := by
  induction pns generalizing R with
  | nil =>
      obtain rfl := Option.some.inj h
      simp [pointSum]
  | cons pn pns ih =>
      rw [sumNonces] at h
      cases hpn : c.fromBytes pn with
      | none => simp [hpn] at h
      | some P =>
          rw [hpn] at h
          rw [ih h]
          simp [pointSum, Curve.point, hpn, add_assoc]

theorem keyAgg_sound {pks : List (List UInt8)} {ka : Keyagg E} (h : musig2KeyAgg c tagged pks = some ka) :
    ka.Sound c tagged ∧ ka.pks = pks := by
  unfold musig2KeyAgg at h
  split at h
  · cases h
  dsimp only at h
  split at h
  · cases h
  next Q hagg =>
  split at h
  · cases h
  next hQ =>
  obtain rfl := Option.some.inj h
  refine ⟨⟨hQ, ?_⟩, rfl⟩
  rw [aggKeys_eq_some hagg]
  simp

theorem tweak_sound {ka ka' : Keyagg E} (hka : ka.Sound c tagged) {t : List UInt8} {xonly : Bool}
    (h : musig2Tweak c ka t xonly = some ka') : ka'.Sound c tagged ∧ ka'.pks = ka.pks := by
  unfold musig2Tweak at h
  split at h
  · cases h
  next T hT =>
  dsimp only at h
  generalize (if xonly && !c.evenY ka.Q then (-1 : Scalar) else 1) = g at h
  split at h
  · cases h
  next hQ =>
  obtain rfl := Option.some.inj h
  refine ⟨⟨hQ, ?_⟩, rfl⟩
  dsimp only
  rw [hka.eq]
  module

theorem applyTweaks_sound {tweaks : List (List UInt8 × Bool)} {ka ka' : Keyagg E}
    (hka : ka.Sound c tagged) (h : applyTweaks c tweaks ka = some ka') :
    ka'.Sound c tagged ∧ ka'.pks = ka.pks := by
  induction tweaks generalizing ka with
  | nil =>
      obtain rfl := Option.some.inj h
      exact ⟨hka, rfl⟩
  | cons t tweaks ih =>
      rw [applyTweaks] at h
      cases ht : musig2Tweak c ka t.1 t.2 with
      | none => simp [ht] at h
      | some ka1 =>
          rw [ht] at h
          obtain ⟨hsound, hpks⟩ := tweak_sound hka ht
          obtain ⟨hsound', hpks'⟩ := ih hsound h
          exact ⟨hsound', hpks'.trans hpks⟩

/-- After any tweaks the accumulators make the aggregate of the keys. -/
theorem tweakedKey_sound {pks : List (List UInt8)} {tweaks : List (List UInt8 × Bool)} {ka : Keyagg E}
    (h : tweakedKey c tagged pks tweaks = some ka) : ka.Sound c tagged ∧ ka.pks = pks := by
  obtain ⟨ka0, hagg, htweaks⟩ := Option.bind_eq_some_iff.mp h
  obtain ⟨hsound, hpks⟩ := keyAgg_sound hagg
  obtain ⟨hsound', hpks'⟩ := applyTweaks_sound hsound htweaks
  exact ⟨hsound', hpks'.trans hpks⟩

/-! ## Bytes -/

theorem beVal_beBytes (w n : Nat) : beVal (Sha256.beBytes w n) = n % 256 ^ w := by
  rw [Sha256.beBytes, beVal_reverse, leVal_leBytes]

theorem scFromBe_scToBe (k : Scalar) : scFromBe (scToBe k) = some k := by
  have hlt : k.val < orderN := ZMod.val_lt k
  have hsmall : orderN < 256 ^ 32 := by decide
  rw [scFromBe, scToBe, beVal_beBytes, Nat.mod_eq_of_lt (hlt.trans hsmall), if_pos hlt,
    ZMod.natCast_val, ZMod.cast_id]

omit [DecidableEq E] in
theorem fromBytes_even {P : E} (hP : P ≠ 0) : c.fromBytes (2 :: c.x P) = some (c.sign P • P) := by
  unfold Curve.sign
  cases heven : c.evenY P with
  | true =>
      have := c.fromBytes_toBytes P hP
      rw [heven] at this
      simpa using this
  | false =>
      have hneg : c.evenY (-P) = true := by rw [c.evenY_neg P hP, heven]; rfl
      have := c.fromBytes_toBytes (-P) (neg_ne_zero.mpr hP)
      rw [hneg, c.x_neg] at this
      simpa using this

omit [DecidableEq E] in
theorem fromBytes_toBytes {P : E} (hP : P ≠ 0) : c.fromBytes (c.toBytes P) = some P :=
  c.fromBytes_toBytes P hP

omit [DecidableEq E] in
theorem length_toBytes (P : E) : (c.toBytes P).length = 33 := by simp [Curve.toBytes, c.x_length]

theorem length_toBytesExt (P : E) : (c.toBytesExt P).length = 33 := by
  unfold Curve.toBytesExt
  split
  · rfl
  · exact length_toBytes P

omit [DecidableEq E] in
theorem toBytes_ne_infBytes (P : E) : c.toBytes P ≠ infBytes := by
  intro heq
  have := congrArg List.head? heq
  simp only [Curve.toBytes, infBytes, List.head?_cons, List.replicate_succ] at this
  split at this <;> simp at this

theorem fromBytesExt_toBytesExt (P : E) : c.fromBytesExt (c.toBytesExt P) = some P := by
  unfold Curve.toBytesExt
  split
  · next hzero => rw [Curve.fromBytesExt, if_pos rfl, hzero]
  · next hP => rw [Curve.fromBytesExt, if_neg (toBytes_ne_infBytes P), fromBytes_toBytes hP]

/-! ## Signing -/

theorem verifyInternal_iff {sc : Scalar} {pubnonce pk : List UInt8} {ka : Keyagg E} {s : Session E} :
    verifyInternal c tagged sc pubnonce pk ka s = true ↔
      (c.fromBytes (pubnonce.take 33)).isSome ∧ (c.fromBytes (pubnonce.drop 33)).isSome ∧
        (c.fromBytes pk).isSome ∧ pk ∈ ka.pks ∧
          sc • c.g = c.sign s.R • (c.point (pubnonce.take 33) + s.b • c.point (pubnonce.drop 33)) +
            (s.e * keyaggCoeff tagged ka.L ka.pk2 pk * (c.sign ka.Q * ka.gacc)) • c.point pk := by
  unfold verifyInternal sessionCoeff
  cases h1 : c.fromBytes (pubnonce.take 33) with
  | none => simp
  | some R1 =>
      cases h2 : c.fromBytes (pubnonce.drop 33) with
      | none => simp
      | some R2 =>
          cases hP : c.fromBytes pk with
          | none => simp
          | some P =>
              by_cases hmem : pk ∈ ka.pks
              · have hsign : (if c.evenY s.R then R1 + s.b • R2 else -(R1 + s.b • R2)) =
                    c.sign s.R • (R1 + s.b • R2) := by
                  unfold Curve.sign
                  split
                  · rw [one_smul]
                  · rw [neg_smul, one_smul]
                simp only [hmem, if_true, hsign, Curve.point, h1, h2, hP, Option.getD_some,
                  decide_eq_true_eq, Option.isSome_some, true_and]
              · simp [hmem]

/-- What a signer keeps: the key and the two nonces, none of them zero. -/
structure Signer where
  sk : List UInt8
  k1 : List UInt8
  k2 : List UInt8
  d : Scalar
  r1 : Scalar
  r2 : Scalar
  sk_eq : secretSc sk = some d
  k1_eq : secretSc k1 = some r1
  k2_eq : secretSc k2 = some r2
  k1_length : k1.length = 32
  k2_length : k2.length = 32

namespace Signer

variable (c) (signer : Signer)

def pk : List UInt8 := c.toBytes (signer.d • c.g)

def secnonce : List UInt8 := signer.k1 ++ (signer.k2 ++ signer.pk c)

def pubnonce : List UInt8 := c.toBytes (signer.r1 • c.g) ++ c.toBytes (signer.r2 • c.g)

end Signer

theorem secretSc_ne_zero {be : List UInt8} {k : Scalar} (h : secretSc be = some k) : k ≠ 0 := by
  obtain ⟨-, hk⟩ := Option.filter_eq_some_iff.mp h
  simpa using hk

omit [DecidableEq E] in
theorem smul_g_ne_zero {k : Scalar} (hk : k ≠ 0) : k • c.g ≠ 0 := fun h => hk (c.g_free k h)

omit [DecidableEq E] in
theorem point_toBytes {P : E} (hP : P ≠ 0) : c.point (c.toBytes P) = P := by
  rw [Curve.point, fromBytes_toBytes hP]
  rfl

/-- An honest signer's partial signature is made and passes. -/
theorem partialSign_verifies (signer : Signer) {ka : Keyagg E} (s : Session E)
    (hpk : signer.pk c ∈ ka.pks) :
    ∃ psig, musig2PartialSign c tagged (signer.secnonce c) signer.sk ka s = some psig ∧
      musig2PartialSigVerify c tagged psig (signer.pubnonce c) (signer.pk c) ka s = true := by
  have hd := smul_g_ne_zero (c := c) (secretSc_ne_zero signer.sk_eq)
  have hr1 := smul_g_ne_zero (c := c) (secretSc_ne_zero signer.k1_eq)
  have hr2 := smul_g_ne_zero (c := c) (secretSc_ne_zero signer.k2_eq)
  have htake1 : (signer.secnonce c).take 32 = signer.k1 := by
    simp [Signer.secnonce, ← signer.k1_length]
  have htake2 : ((signer.secnonce c).drop 32).take 32 = signer.k2 := by
    have hdrop : (signer.secnonce c).drop 32 = signer.k2 ++ signer.pk c := by
      simp [Signer.secnonce, ← signer.k1_length]
    rw [hdrop, ← signer.k2_length, List.take_left]
  have htake3 : ((signer.secnonce c).drop 64).take 33 = signer.pk c := by
    have hdrop : (signer.secnonce c).drop 64 = signer.pk c := by
      have h64 : 64 = (signer.k1 ++ signer.k2).length := by
        rw [List.length_append, signer.k1_length, signer.k2_length]
      rw [Signer.secnonce, ← List.append_assoc, h64, List.drop_left]
    rw [hdrop]
    exact List.take_of_length_le (length_toBytes _).le
  have hpn1 : (signer.pubnonce c).take 33 = c.toBytes (signer.r1 • c.g) := by
    simp [Signer.pubnonce, ← length_toBytes (c := c) (signer.r1 • c.g)]
  have hpn2 : (signer.pubnonce c).drop 33 = c.toBytes (signer.r2 • c.g) := by
    simp [Signer.pubnonce, ← length_toBytes (c := c) (signer.r1 • c.g)]
  have hverify : ∀ sc : Scalar,
      sc = c.sign s.R * signer.r1 + s.b * (c.sign s.R * signer.r2) +
        s.e * keyaggCoeff tagged ka.L ka.pk2 (signer.pk c) * (c.sign ka.Q * ka.gacc * signer.d) →
      verifyInternal c tagged sc (signer.pubnonce c) (signer.pk c) ka s = true := by
    rintro sc rfl
    rw [verifyInternal_iff, hpn1, hpn2, point_toBytes hr1, point_toBytes hr2, Signer.pk,
      point_toBytes hd, fromBytes_toBytes hr1, fromBytes_toBytes hr2, fromBytes_toBytes hd]
    refine ⟨rfl, rfl, rfl, hpk, ?_⟩
    module
  have hk1 : (if c.evenY s.R then signer.r1 else -signer.r1) = c.sign s.R * signer.r1 := by
    unfold Curve.sign
    split <;> simp
  have hk2 : (if c.evenY s.R then signer.r2 else -signer.r2) = c.sign s.R * signer.r2 := by
    unfold Curve.sign
    split <;> simp
  have hmade : musig2PartialSign c tagged (signer.secnonce c) signer.sk ka s =
      some (scToBe (c.sign s.R * signer.r1 + s.b * (c.sign s.R * signer.r2) +
        s.e * keyaggCoeff tagged ka.L ka.pk2 (signer.pk c) * (c.sign ka.Q * ka.gacc * signer.d))) := by
    unfold musig2PartialSign
    rw [htake1, htake2, htake3, signer.k1_eq, signer.k2_eq, signer.sk_eq]
    simp only [← Signer.pk.eq_def, ← Signer.pubnonce.eq_def, ne_eq, not_true, if_false, sessionCoeff,
      if_pos hpk, hk1, hk2, hverify _ rfl, if_true]
  refine ⟨_, hmade, ?_⟩
  rw [musig2PartialSigVerify, scFromBe_scToBe]
  exact hverify _ rfl

/-! ## The aggregate signature -/

/-- What the partial signatures sum to when each passes for its position. -/
theorem sumSigs_eq {ka : Keyagg E} {s : Session E} {pks pns psigs : List (List UInt8)}
    (hpns : pns.length = pks.length) (hpsigs : psigs.length = pks.length)
    (hverify : ∀ t ∈ pks.zip (pns.zip psigs),
      musig2PartialSigVerify c tagged t.2.2 t.2.1 t.1 ka s = true) (acc : Scalar) :
    ∃ sum, sumSigs psigs acc = some sum ∧
      sum • c.g = acc • c.g +
        c.sign s.R • (pointSum c (pns.map (List.take 33)) + s.b • pointSum c (pns.map (List.drop 33))) +
          (s.e * (c.sign ka.Q * ka.gacc)) • keySum c tagged ka.L ka.pk2 pks := by
  induction pks generalizing pns psigs acc with
  | nil =>
      obtain rfl := List.length_eq_zero_iff.mp hpns
      obtain rfl := List.length_eq_zero_iff.mp hpsigs
      exact ⟨acc, rfl, by simp [pointSum, keySum]⟩
  | cons pk pks ih =>
      obtain ⟨pn, pns, rfl⟩ := List.exists_cons_of_length_eq_add_one hpns
      obtain ⟨psig, psigs, rfl⟩ := List.exists_cons_of_length_eq_add_one hpsigs
      have hfirst := hverify (pk, pn, psig) (by simp)
      unfold musig2PartialSigVerify at hfirst
      cases hsc : scFromBe psig with
      | none => simp [hsc] at hfirst
      | some si =>
          simp only [hsc, verifyInternal_iff] at hfirst
          obtain ⟨sum, hsum, heq⟩ := ih (by simpa using hpns) (by simpa using hpsigs)
            (fun t ht => hverify t (by simp [ht])) (acc + si)
          refine ⟨sum, by rw [sumSigs, hsc]; exact hsum, ?_⟩
          rw [heq, add_smul, hfirst.2.2.2.2]
          simp only [pointSum, keySum, List.map_cons, List.sum_cons]
          module

theorem nonceAgg_final {pns : List (List UInt8)} {agg msg : List UInt8} {ka : Keyagg E}
    (h : musig2NonceAgg c pns = some agg) :
    finalNonce c tagged ka agg msg =
      some (pointSum c (pns.map (List.take 33)) +
        nonceCoeff c tagged ka agg msg • pointSum c (pns.map (List.drop 33))) := by
  unfold musig2NonceAgg at h
  cases h1 : sumNonces c (pns.map (List.take 33)) 0 with
  | none => simp [h1] at h
  | some R1 =>
      cases h2 : sumNonces c (pns.map (List.drop 33)) 0 with
      | none => simp [h1, h2] at h
      | some R2 =>
          simp only [h1, h2, Option.some.injEq] at h
          have htake : agg.take 33 = c.toBytesExt R1 := by
            rw [← h, ← length_toBytesExt (c := c) R1, List.take_left]
          have hdrop : agg.drop 33 = c.toBytesExt R2 := by
            rw [← h, ← length_toBytesExt (c := c) R1, List.drop_left]
          have hsum1 := sumNonces_eq_some h1
          have hsum2 := sumNonces_eq_some h2
          rw [zero_add] at hsum1 hsum2
          rw [finalNonce, htake, hdrop, fromBytesExt_toBytesExt, fromBytesExt_toBytesExt, hsum1, hsum2]

theorem session_eq {ka : Keyagg E} {agg msg : List UInt8} {s : Session E} {R : E}
    (hfinal : finalNonce c tagged ka agg msg = some R) (hR : R ≠ 0)
    (h : musig2Session c tagged ka agg msg = some s) :
    s = ⟨nonceCoeff c tagged ka agg msg, challenge tagged (c.x R) (c.x ka.Q) msg, R⟩ := by
  rw [musig2Session, hfinal] at h
  dsimp only at h
  split at h
  · cases h
  · exact (Option.some.inj h).symm

/-- When every position has a partial signature that passes, the aggregate is a signature of the
tweaked key. -/
theorem partialSigAgg_bip340 {ka : Keyagg E} (hka : ka.Sound c tagged) {pns psigs : List (List UInt8)}
    {agg msg : List UInt8} {s : Session E} (hagg : musig2NonceAgg c pns = some agg)
    (hfinal : finalNonce c tagged ka agg msg ≠ some 0)
    (hs : musig2Session c tagged ka agg msg = some s) (hpns : pns.length = ka.pks.length)
    (hpsigs : psigs.length = ka.pks.length)
    (hverify : ∀ t ∈ ka.pks.zip (pns.zip psigs),
      musig2PartialSigVerify c tagged t.2.2 t.2.1 t.1 ka s = true) :
    ∃ sig, musig2PartialSigAgg c s ka psigs = some sig ∧ Bip340 c tagged (c.x ka.Q) msg sig := by
  obtain ⟨sum, hsum, heq⟩ := sumSigs_eq hpns hpsigs hverify 0
  have hnonce := @nonceAgg_final _ _ _ _ c tagged pns agg msg ka hagg
  have hR : pointSum c (pns.map (List.take 33)) +
      nonceCoeff c tagged ka agg msg • pointSum c (pns.map (List.drop 33)) ≠ 0 := by
    intro hzero
    rw [hzero] at hnonce
    exact hfinal hnonce
  obtain rfl := session_eq hnonce hR hs
  dsimp only at heq hsum ⊢
  generalize pointSum c (pns.map (List.take 33)) +
      nonceCoeff c tagged ka agg msg • pointSum c (pns.map (List.drop 33)) = R at *
  have htake : ∀ rest, (c.x R ++ rest).take 32 = c.x R := by
    intro rest
    rw [← c.x_length R, List.take_left]
  have hdrop : ∀ rest, (c.x R ++ rest).drop 32 = rest := by
    intro rest
    rw [← c.x_length R, List.drop_left]
  rw [musig2PartialSigAgg, hsum]
  refine ⟨_, rfl, ?_⟩
  rw [Bip340, htake, hdrop, scFromBe_scToBe, fromBytes_even hka.ne_zero, fromBytes_even hR]
  refine ⟨_, _, _, rfl, rfl, rfl, ?_⟩
  dsimp only
  generalize challenge tagged (c.x R) (c.x ka.Q) msg = e at *
  have hQ : c.sign ka.Q • ka.Q =
      c.sign ka.Q • (ka.gacc • keySum c tagged ka.L ka.pk2 ka.pks + ka.tacc • c.g) := by
    rw [← hka.eq]
  rw [add_smul, heq, hQ]
  module

end Points

/-! ## A group of this order

The scalars themselves, with the lower half as the points with an even second coordinate. -/

def lineFromBytes (bytes : List UInt8) : Option Scalar :=
  let v := beVal bytes.tail
  if bytes.length = 33 ∧ 1 ≤ v ∧ v ≤ halfOrderN then
    if bytes.head? = some 2 then some (v : Scalar)
    else if bytes.head? = some 3 then some (-(v : Scalar))
    else none
  else none

def lineX (P : Scalar) : List UInt8 := Sha256.beBytes 32 (min P.val (-P).val)

theorem orderN_eq : orderN = 2 * halfOrderN + 1 := by decide

theorem val_neg_eq {P : Scalar} (hP : P ≠ 0) : (-P).val = orderN - P.val := by
  rw [ZMod.neg_val, if_neg hP]

theorem lineX_of_val {P : Scalar} {v : Nat} (hv : v ≤ halfOrderN) (hv1 : 1 ≤ v)
    (hP : P.val = v ∨ P.val = orderN - v) : lineX P = Sha256.beBytes 32 v := by
  have horder := orderN_eq
  have hne : P ≠ 0 := by
    rintro rfl
    rw [ZMod.val_zero] at hP
    omega
  rw [lineX, val_neg_eq hne]
  congr 1
  omega

theorem line_fromBytes_toBytes {P : Scalar} (hP : P ≠ 0) :
    lineFromBytes ((if decide (P.val ≤ halfOrderN) then 2 else 3) :: lineX P) = some P := by
  have horder := orderN_eq
  have hsmall : halfOrderN < 256 ^ 32 := by decide
  have hlt : P.val < orderN := ZMod.val_lt P
  have hpos : P.val ≠ 0 := (ZMod.val_ne_zero P).mpr hP
  have hcast : ((P.val : Nat) : Scalar) = P := by rw [ZMod.natCast_val, ZMod.cast_id]
  have hlen : (lineX P).length = 32 := by simp [lineX, Sha256.beBytes]
  by_cases hhalf : P.val ≤ halfOrderN
  · rw [lineX_of_val hhalf (by omega) (.inl rfl)] at hlen ⊢
    simp only [lineFromBytes, List.tail_cons, beVal_beBytes,
      Nat.mod_eq_of_lt (hhalf.trans_lt hsmall), List.length_cons, hlen, decide_eq_true_eq, if_pos hhalf,
      List.head?_cons, if_true, hcast]
    rw [if_pos ⟨trivial, by omega, hhalf⟩]
  · have hback : ((orderN - P.val : Nat) : Scalar) = -P := by
      rw [Nat.cast_sub hlt.le, hcast, ZMod.natCast_self, zero_sub]
    rw [lineX_of_val (v := orderN - P.val) (by omega) (by omega) (.inr (by omega))] at hlen ⊢
    simp only [lineFromBytes, List.tail_cons, beVal_beBytes,
      Nat.mod_eq_of_lt ((show orderN - P.val ≤ halfOrderN by omega).trans_lt hsmall), List.length_cons,
      hlen, decide_eq_true_eq, if_neg hhalf, List.head?_cons, hback, neg_neg]
    rw [if_pos ⟨trivial, by omega, by omega⟩]
    rfl

theorem line_fromBytes_eq_some {bytes : List UInt8} {P : Scalar} (h : lineFromBytes bytes = some P) :
    P ≠ 0 ∧ bytes = (if decide (P.val ≤ halfOrderN) then 2 else 3) :: lineX P := by
  have horder := orderN_eq
  cases bytes with
  | nil => simp [lineFromBytes] at h
  | cons head rest =>
      simp only [lineFromBytes, List.tail_cons, List.length_cons, List.head?_cons, Option.some.injEq] at h
      split at h
      · next hin =>
          obtain ⟨hlen, hlow, hhigh⟩ := hin
          have hrest : Sha256.beBytes 32 (beVal rest) = rest := by
            apply beVal_inj
            · simp [Sha256.beBytes]
              omega
            · rw [beVal_beBytes, Nat.mod_eq_of_lt]
              exact hhigh.trans_lt (by decide)
          have hval : ((beVal rest : Nat) : Scalar).val = beVal rest := ZMod.val_cast_of_lt (by omega)
          have hne : ((beVal rest : Nat) : Scalar) ≠ 0 := by
            intro hzero
            rw [hzero, ZMod.val_zero] at hval
            omega
          split at h
          · next heven =>
              obtain rfl := Option.some.inj h
              refine ⟨hne, ?_⟩
              rw [lineX_of_val hhigh hlow (.inl hval), hrest, hval, heven, if_pos (by simpa using hhigh)]
          · split at h
            · next hodd =>
                obtain rfl := Option.some.inj h
                have hneg : (-((beVal rest : Nat) : Scalar)).val = orderN - beVal rest := by
                  rw [val_neg_eq hne, hval]
                refine ⟨neg_ne_zero.mpr hne, ?_⟩
                rw [lineX_of_val hhigh hlow (.inr hneg), hrest, hneg, hodd, if_neg (by simp; omega)]
            · cases h
      · cases h

def lineCurve : Curve Scalar where
  g := 1
  evenY P := decide (P.val ≤ halfOrderN)
  x := lineX
  fromBytes := lineFromBytes
  g_free k h := by rwa [smul_eq_mul, mul_one] at h
  evenY_neg P hP := by
    have horder := orderN_eq
    have hlt : P.val < orderN := ZMod.val_lt P
    rw [val_neg_eq hP, ← decide_not]
    congr 1
    simp only [eq_iff_iff]
    omega
  x_neg P := by rw [lineX, lineX, neg_neg, min_comm]
  x_length P := by simp [lineX, Sha256.beBytes]
  fromBytes_eq_some _ _ := line_fromBytes_eq_some
  fromBytes_toBytes _ := line_fromBytes_toBytes

/-- A hash that is one throughout. -/
def oneHash : String → List UInt8 → List UInt8 := fun _ _ => Sha256.beBytes 32 1

theorem hashToSc_one (tag : String) (data : List UInt8) : hashToSc (oneHash tag data) = 1 := by
  rw [hashToSc, oneHash, beVal_beBytes]
  simp

theorem scalar_one_ne_zero : (1 : Scalar) ≠ 0 := by
  have : Fact (1 < orderN) := ⟨by decide⟩
  exact one_ne_zero

/-- The key of the one signer, whose secret is one. -/
def oneKey : List UInt8 := lineCurve.toBytes 1

theorem tweakedKey_one :
    tweakedKey lineCurve oneHash [oneKey] [] =
      some ⟨[oneKey], oneHash "" [], infBytes, 1, 1, 0⟩ := by
  have hpk : oneKey ≠ infBytes := toBytes_ne_infBytes _
  have hagg : aggKeys lineCurve oneHash (oneHash "" []) infBytes [oneKey] 0 = some (1 : Scalar) := by
    simp only [aggKeys, oneKey, fromBytes_toBytes scalar_one_ne_zero]
    simp [keyaggCoeff, ← oneKey.eq_def, hpk, hashToSc_one]
  have hkey : musig2KeyAgg lineCurve oneHash [oneKey] =
      some ⟨[oneKey], oneHash "" [], infBytes, 1, 1, 0⟩ := by
    have hsecond : secondKey [oneKey] = infBytes := rfl
    have hL : oneHash "KeyAgg list" [oneKey].flatten = oneHash "" [] := rfl
    rw [musig2KeyAgg, if_neg (by simp [musig2MaxKeys])]
    simp only [hsecond, hL, hagg, if_neg scalar_one_ne_zero]
  rw [tweakedKey, hkey]
  rfl

end BitcoinMachineCode.Wallet
