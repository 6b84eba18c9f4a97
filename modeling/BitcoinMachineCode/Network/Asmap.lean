import Mathlib.Data.Nat.Size
import BitcoinMachineCode.Foundation.BitString
import BitcoinMachineCode.Foundation.Digits

/-!
# The map of autonomous systems

`decode_bits` and `asmap_lookup_raw` of `daemon/asmap.c`: the interpreter of a map over the
bits of an address.  The state holds the bits of the map and of the address that were not
read yet; a jump drops bits of the map.  Beside it are the trees a map is written from and
their encoding, which is the format itself.
-/

namespace BitcoinMachineCode.Network.Asmap

open BitcoinMachineCode.Foundation

/-! ## Numbers -/

/-- `decode_bits` from a size class on: the last class has no continuation bit. -/
def decodeBits : Nat → List Nat → Reader Bool Nat
  | _, [] => fun _ => none
  | val, size :: sizes =>
      Reader.bind (if sizes = [] then Reader.pure [false] else Reader.take 1) fun bit =>
        if bit = [true] then decodeBits (val + 2 ^ size) sizes
        else Reader.bind (Reader.take size) fun bs => Reader.pure (val + bitsVal bs)

def typeSizes : List Nat := [0, 0, 1]

def asnSizes : List Nat := [15, 16, 17, 18, 19, 20, 21, 22, 23, 24]

def matchSizes : List Nat := [1, 2, 3, 4, 5, 6, 7, 8]

def jumpSizes : List Nat :=
  [5, 6, 7, 8, 9, 10, 11, 12, 13, 14, 15, 16, 17, 18, 19, 20, 21, 22, 23, 24, 25, 26, 27, 28, 29, 30]

/-! ## The interpreter -/

/-- The pattern of a match: the bits of the value below its highest. -/
def matchBits (value : Nat) : List Bool := toBits (value.size - 1) value

/-- `asmap_lookup_raw` from a place of the map and the address on; a pass reads at least one bit
of the map. -/
def lookup : Nat → List Bool → List Bool → Nat → Nat
  | 0, _, _, _ => 0
  | fuel + 1, code, ip, dflt =>
      if code = [] then 0
      else
        match decodeBits 0 typeSizes code with
        | none => 0
        | some (0, code) =>
            match decodeBits 1 asnSizes code with
            | none => 0
            | some (asn, _) => asn
        | some (1, code) =>
            match decodeBits 17 jumpSizes code with
            | none => 0
            | some (jump, code) =>
                match ip with
                | [] => 0
                | bit :: ip =>
                    if code.length ≤ jump then 0 else lookup fuel (if bit then code.drop jump else code) ip dflt
        | some (2, code) =>
            match decodeBits 2 matchSizes code with
            | none => 0
            | some (value, code) =>
                let pattern := matchBits value
                if ip.length < pattern.length then 0
                else if ip.take pattern.length = pattern then lookup fuel code (ip.drop pattern.length) dflt
                else dflt
        | some (3, code) =>
            match decodeBits 1 asnSizes code with
            | none => 0
            | some (asn, code) => lookup fuel code ip asn
        | some _ => 0

/-- `asmap_lookup_raw`: the map is read from the lowest bit of each byte, the address from the
highest. -/
def asmapLookupRaw (code ip : List UInt8) : Nat :=
  lookup (unpackLow code).length (unpackLow code) (unpackBits ip) 0

/-! ## Trees -/

inductive AsTree where
  | leaf (asn : Nat)
  | node (left right : AsTree)
  | pattern (bits : List Bool) (rest : AsTree)
  | fallback (asn : Nat) (rest : AsTree)

namespace AsTree

/-- The number a tree assigns to an address, with the default that holds above it. -/
def assigned : AsTree → Nat → List Bool → Nat
  | leaf asn, _, _ => asn
  | node left right, dflt, bit :: ip => if bit then right.assigned dflt ip else left.assigned dflt ip
  | node _ _, _, [] => 0
  | pattern bits rest, dflt, ip => if ip.take bits.length = bits then rest.assigned dflt (ip.drop bits.length) else dflt
  | fallback asn rest, _, ip => rest.assigned asn ip

/-- The number of address bits on the longest way down. -/
def depth : AsTree → Nat
  | leaf _ => 0
  | node left right => 1 + max left.depth right.depth
  | pattern bits rest => bits.length + rest.depth
  | fallback _ rest => rest.depth

end AsTree

/-! ## The format -/

/-- How many numbers the classes hold. -/
def capacity (sizes : List Nat) : Nat := (sizes.map (2 ^ ·)).sum

/-- A number from zero on in the first class that holds it. -/
def encodeNum : Nat → List Nat → List Bool
  | _, [] => []
  | x, [size] => toBits size x
  | x, size :: sizes => if x < 2 ^ size then false :: toBits size x else true :: encodeNum (x - 2 ^ size) sizes

def encodeAsn (asn : Nat) : List Bool := encodeNum (asn - 1) asnSizes

namespace AsTree

def encode : AsTree → List Bool
  | leaf asn => [false] ++ encodeAsn asn
  | node left right => [true, false] ++ encodeNum (left.encode.length - 17) jumpSizes ++ left.encode ++ right.encode
  | pattern bits rest =>
      [true, true, false] ++ encodeNum (2 ^ bits.length + bitsVal bits - 2) matchSizes ++ rest.encode
  | fallback asn rest => [true, true, true] ++ encodeAsn asn ++ rest.encode

/-- A number of the format. -/
def AsnOk (asn : Nat) : Prop := 1 ≤ asn ∧ asn < 1 + capacity asnSizes

/-- The numbers and jumps of the tree are in the range of the format. -/
def Encodable : AsTree → Prop
  | leaf asn => AsnOk asn
  | node left right => left.encode.length < 17 + capacity jumpSizes ∧ left.Encodable ∧ right.Encodable
  | pattern bits rest => 1 ≤ bits.length ∧ bits.length ≤ 8 ∧ rest.Encodable
  | fallback asn rest => AsnOk asn ∧ rest.Encodable

end AsTree

/-! ## Numbers come back -/

theorem takes_class {size x : Nat} (val : Nat) (hx : x < 2 ^ size) :
    (Reader.bind (Reader.take size) fun bs => Reader.pure (val + bitsVal bs)).Takes (toBits size x) (val + x) := by
  intro tail
  have htake := Reader.takes_take (length_toBits size x) tail
  simp [Reader.bind, htake, Reader.pure, bitsVal_toBits, Nat.mod_eq_of_lt hx]

theorem takes_decodeBits (sizes : List Nat) (val : Nat) {x : Nat} (hx : x < capacity sizes) :
    (decodeBits val sizes).Takes (encodeNum x sizes) (val + x) := by
  induction sizes generalizing val x with
  | nil => simp [capacity] at hx
  | cons size sizes ih =>
      intro tail
      cases sizes with
      | nil =>
          have hlt : x < 2 ^ size := by simpa [capacity] using hx
          exact takes_class val hlt tail
      | cons next sizes =>
          by_cases hlt : x < 2 ^ size
          · have hclass := takes_class val hlt tail
            simp only [encodeNum, if_pos hlt]
            exact hclass
          · have hrest : x - 2 ^ size < capacity (next :: sizes) := by
              simp only [capacity, List.map_cons, List.sum_cons] at hx ⊢
              omega
            have hmore := ih (val + 2 ^ size) hrest tail
            have hsum : val + 2 ^ size + (x - 2 ^ size) = val + x := by omega
            rw [hsum] at hmore
            simp only [encodeNum, if_neg hlt]
            exact hmore

theorem length_encodeNum_ge {sizes : List Nat} {m : Nat} (x : Nat) (hne : sizes ≠ []) (hm : ∀ s ∈ sizes, m ≤ s) :
    m ≤ (encodeNum x sizes).length := by
  induction sizes generalizing x with
  | nil => exact absurd rfl hne
  | cons size sizes ih =>
      have hsize : m ≤ size := hm size List.mem_cons_self
      cases sizes with
      | nil => simpa [encodeNum] using hsize
      | cons next sizes =>
          have hmore := ih (x - 2 ^ size) (by simp) fun s hs => hm s (List.mem_cons_of_mem _ hs)
          by_cases hlt : x < 2 ^ size
          · simp [encodeNum, hlt]
            omega
          · simp only [encodeNum, hlt, if_false, List.length_cons]
            omega

theorem takes_asn {asn : Nat} (h : AsTree.AsnOk asn) : (decodeBits 1 asnSizes).Takes (encodeAsn asn) asn := by
  obtain ⟨hpos, hlt⟩ := h
  have htakes := takes_decodeBits asnSizes 1 (show asn - 1 < capacity asnSizes by omega)
  have hsum : 1 + (asn - 1) = asn := by omega
  rwa [hsum] at htakes

theorem length_encodeAsn_ge (asn : Nat) : 16 ≤ (encodeAsn asn).length := by
  unfold encodeAsn asnSizes
  by_cases hlt : asn - 1 < 2 ^ 15
  · rw [encodeNum, if_pos hlt, List.length_cons, length_toBits]
    simp
  · have hmore := length_encodeNum_ge (asn - 1 - 2 ^ 15) (by simp)
      (show ∀ s ∈ [16, 17, 18, 19, 20, 21, 22, 23, 24], 16 ≤ s by decide)
    rw [encodeNum, if_neg hlt, List.length_cons]
    · omega
    · simp

/-- A jump distance is at least the length of a return. -/
theorem AsTree.length_encode_ge (t : AsTree) : 17 ≤ t.encode.length := by
  induction t with
  | leaf asn =>
      have := length_encodeAsn_ge asn
      simp only [AsTree.encode, List.length_append, List.length_cons, List.length_nil]
      omega
  | node left right hleft hright =>
      simp only [AsTree.encode, List.length_append]
      omega
  | pattern bits rest ih =>
      simp only [AsTree.encode, List.length_append]
      omega
  | fallback asn rest ih =>
      simp only [AsTree.encode, List.length_append]
      omega

/-! ## Patterns come back -/

theorem matchBits_value (bits : List Bool) : matchBits (2 ^ bits.length + bitsVal bits) = bits := by
  have hlt := bitsVal_lt bits
  have hsize : (2 ^ bits.length + bitsVal bits).size = bits.length + 1 := by
    apply le_antisymm
    · rw [Nat.size_le, pow_succ]
      omega
    · exact Nat.lt_size.mpr (Nat.le_add_right _ _)
  have hmod : (2 ^ bits.length + bitsVal bits) % 2 ^ bits.length = bitsVal bits := by
    rw [Nat.add_mod_left, Nat.mod_eq_of_lt hlt]
  rw [matchBits, hsize, Nat.add_sub_cancel, ← toBits_mod, hmod, toBits_bitsVal]

theorem takes_match {bits : List Bool} (hpos : 1 ≤ bits.length) (hle : bits.length ≤ 8) :
    (decodeBits 2 matchSizes).Takes (encodeNum (2 ^ bits.length + bitsVal bits - 2) matchSizes)
      (2 ^ bits.length + bitsVal bits) := by
  have hlow : 2 ^ 1 ≤ 2 ^ bits.length := Nat.pow_le_pow_right (by decide) hpos
  have hhigh : 2 ^ bits.length ≤ 2 ^ 8 := Nat.pow_le_pow_right (by decide) hle
  have hlt := bitsVal_lt bits
  have hcap : capacity matchSizes = 510 := by decide
  have htakes := takes_decodeBits matchSizes 2 (show 2 ^ bits.length + bitsVal bits - 2 < capacity matchSizes by omega)
  have hsum : 2 + (2 ^ bits.length + bitsVal bits - 2) = 2 ^ bits.length + bitsVal bits := by omega
  rwa [hsum] at htakes

/-! ## The interpreter follows the tree -/

theorem type_return (tail : List Bool) : decodeBits 0 typeSizes ([false] ++ tail) = some (0, tail) :=
  takes_decodeBits typeSizes 0 (show 0 < capacity typeSizes by decide) tail

theorem type_jump (tail : List Bool) : decodeBits 0 typeSizes ([true, false] ++ tail) = some (1, tail) :=
  takes_decodeBits typeSizes 0 (show 1 < capacity typeSizes by decide) tail

theorem type_match (tail : List Bool) : decodeBits 0 typeSizes ([true, true, false] ++ tail) = some (2, tail) :=
  takes_decodeBits typeSizes 0 (show 2 < capacity typeSizes by decide) tail

theorem type_default (tail : List Bool) : decodeBits 0 typeSizes ([true, true, true] ++ tail) = some (3, tail) :=
  takes_decodeBits typeSizes 0 (show 3 < capacity typeSizes by decide) tail

theorem lookup_encode (t : AsTree) (ht : t.Encodable) {fuel : Nat} {ip : List Bool} (rest : List Bool) (dflt : Nat)
    (hdepth : t.depth ≤ ip.length) (hfuel : t.encode.length ≤ fuel) :
    lookup fuel (t.encode ++ rest) ip dflt = t.assigned dflt ip := by
  induction t generalizing fuel ip rest dflt with
  | leaf asn =>
      cases fuel with
      | zero => simp [AsTree.encode] at hfuel
      | succ fuel =>
          have hasn := takes_asn ht rest
          simp only [AsTree.encode, List.append_assoc, lookup, type_return, hasn, AsTree.assigned]
          simp
  | node left right hleft hright =>
      obtain ⟨hjump, hl, hr⟩ := ht
      cases ip with
      | nil => simp [AsTree.depth] at hdepth
      | cons bit ip =>
          cases fuel with
          | zero => simp [AsTree.encode] at hfuel
          | succ fuel =>
              have hge := left.length_encode_ge
              have hright_ge := right.length_encode_ge
              have hnum := takes_decodeBits jumpSizes 17
                (show left.encode.length - 17 < capacity jumpSizes by omega) (left.encode ++ (right.encode ++ rest))
              have hsum : 17 + (left.encode.length - 17) = left.encode.length := by omega
              rw [hsum] at hnum
              have hinside : ¬(left.encode ++ (right.encode ++ rest)).length ≤ left.encode.length := by
                simp only [List.length_append]
                omega
              simp only [AsTree.depth, List.length_cons] at hdepth
              simp only [AsTree.encode, List.length_append, List.length_cons, List.length_nil] at hfuel
              have hbelow : left.depth ≤ ip.length ∧ right.depth ≤ ip.length := by omega
              simp only [AsTree.encode, List.append_assoc, lookup, type_jump, hnum, AsTree.assigned]
              rw [if_neg (by simp), if_neg hinside]
              cases bit with
              | true =>
                  simp only [if_true, List.drop_left']
                  exact hright hr rest dflt hbelow.2 (by omega)
              | false =>
                  simp only [Bool.false_eq_true, if_false]
                  exact hleft hl (right.encode ++ rest) dflt hbelow.1 (by omega)
  | pattern bits tail ih =>
      obtain ⟨hpos, hle, htail⟩ := ht
      cases fuel with
      | zero => simp [AsTree.encode] at hfuel
      | succ fuel =>
          have hnum := takes_match hpos hle (tail.encode ++ rest)
          simp only [AsTree.depth] at hdepth
          simp only [AsTree.encode, List.length_append, List.length_cons, List.length_nil] at hfuel
          have hlong : ¬ip.length < bits.length := by omega
          simp only [AsTree.encode, List.append_assoc, lookup, type_match, hnum, AsTree.assigned, matchBits_value]
          rw [if_neg (by simp), if_neg hlong]
          split
          · apply ih htail rest dflt
            · rw [List.length_drop]
              omega
            · omega
          · rfl
  | fallback asn tail ih =>
      obtain ⟨hasn, htail⟩ := ht
      cases fuel with
      | zero => simp [AsTree.encode] at hfuel
      | succ fuel =>
          have hnum := takes_asn hasn (tail.encode ++ rest)
          simp only [AsTree.encode, List.length_append, List.length_cons, List.length_nil] at hfuel
          simp only [AsTree.encode, List.append_assoc, lookup, type_default, hnum, AsTree.assigned]
          rw [if_neg (by simp)]
          exact ih htail rest asn hdepth (by omega)

/-- On the encoding of a tree the interpreter returns what the tree assigns to the address. -/
theorem asmapLookupRaw_encode (t : AsTree) (ht : t.Encodable) (hdepth : t.depth ≤ 128) (ip : List UInt8)
    (hip : ip.length = 16) : asmapLookupRaw (packLow t.encode) ip = t.assigned 0 (unpackBits ip) := by
  obtain ⟨k, hk⟩ := unpackLow_packLow t.encode
  have hbits : (unpackBits ip).length = 128 := by
    simp [unpackBits, List.length_flatMap, hip]
  rw [asmapLookupRaw, hk]
  apply lookup_encode t ht
  · rwa [hbits]
  · simp

/-- A tree with a default, a pattern that some addresses miss and a node. -/
def sampleTree : AsTree :=
  .fallback 64512 (.pattern [false, false, true] (.node (.leaf 13335) (.pattern [true] (.leaf 40000))))

theorem asmapLookupRaw_encode_sample :
    (sampleTree.Encodable ∧ sampleTree.depth ≤ 128) ∧
      asmapLookupRaw (packLow sampleTree.encode) (0x3f :: List.replicate 15 7) = 40000 ∧
      asmapLookupRaw (packLow sampleTree.encode) (0xff :: List.replicate 15 7) = 64512 := by
  have hok : sampleTree.Encodable := by
    simp only [sampleTree, AsTree.Encodable, AsTree.AsnOk]
    decide
  have hdepth : sampleTree.depth ≤ 128 := by decide
  refine ⟨⟨hok, hdepth⟩, ?_, ?_⟩
  · rw [asmapLookupRaw_encode sampleTree hok hdepth _ (by simp)]
    decide
  · rw [asmapLookupRaw_encode sampleTree hok hdepth _ (by simp)]
    decide

end BitcoinMachineCode.Network.Asmap
