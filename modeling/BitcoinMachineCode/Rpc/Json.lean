import Mathlib.Data.List.DropRight
import Mathlib.Data.List.TakeWhile
import Mathlib.Tactic.Common

/-!
# JSON values, written and read

The writer and the parser of `rpc_json.c`, over bytes.  A string of a value ends at its first
NUL.  Frozen values, which hold text instead of a tree, are left out, and so is the arena.
-/

namespace BitcoinMachineCode.Rpc

inductive JVal where
  | null
  | bool (b : Bool)
  | num (text : List UInt8)
  | str (s : List UInt8)
  | arr (items : List JVal)
  | obj (members : List (List UInt8 × JVal))

/-! ## Writing -/

/-- `rj_esc_needed` -/
def escNeeded (b : UInt8) : Bool := decide (b < 0x20) || b == 0x22 || b == 0x5c || b == 0x7f

def hexDigit (n : Nat) : UInt8 := UInt8.ofNat (if n < 10 then 0x30 + n else 0x61 + (n - 10))

/-- What stands for a byte that is escaped. -/
def escapeOf (b : UInt8) : List UInt8 :=
  if b = 0x22 then [0x5c, 0x22]
  else if b = 0x5c then [0x5c, 0x5c]
  else if b = 0x08 then [0x5c, 0x62]
  else if b = 0x0c then [0x5c, 0x66]
  else if b = 0x0a then [0x5c, 0x6e]
  else if b = 0x0d then [0x5c, 0x72]
  else if b = 0x09 then [0x5c, 0x74]
  else if b < 0x20 ∨ b = 0x7f then
    [0x5c, 0x75, 0x30, 0x30, hexDigit (b.toNat / 16), hexDigit (b.toNat % 16)]
  else [b]

/-- `rj_append_escaped`: a stretch that needs no escape is copied whole. -/
def appendEscaped (s : List UInt8) : List UInt8 :=
  match s with
  | [] => []
  | b :: rest =>
      if b = 0 then []
      else if escNeeded b then escapeOf b ++ appendEscaped rest
      else
        b :: (rest.takeWhile (fun q => !escNeeded q) ++
          appendEscaped (rest.dropWhile fun q => !escNeeded q))
termination_by s.length
decreasing_by
  · simp
  · have := List.length_dropWhile_le (fun q => !escNeeded q) rest
    simp
    omega

def quoted (s : List UInt8) : List UInt8 := 0x22 :: (appendEscaped s ++ [0x22])

/-- A line break, and two blanks for each level; neither in compact text. -/
def lineBreak (pretty : Bool) : List UInt8 := if pretty then [0x0a] else []

def pad (pretty : Bool) (indent : Nat) : List UInt8 :=
  if pretty then List.replicate (2 * indent) 0x20 else []

def colon (pretty : Bool) : List UInt8 := if pretty then [0x3a, 0x20] else [0x3a]

def nullText : List UInt8 := [0x6e, 0x75, 0x6c, 0x6c]

def trueText : List UInt8 := [0x74, 0x72, 0x75, 0x65]

def falseText : List UInt8 := [0x66, 0x61, 0x6c, 0x73, 0x65]

mutual

def rjW (pretty : Bool) : Nat → JVal → List UInt8
  | _, .null => nullText
  | _, .bool b => if b then trueText else falseText
  | _, .num text => text
  | _, .str s => quoted s
  | indent, .arr items => 0x5b :: (rjWItems pretty indent items ++ [0x5d])
  | indent, .obj members => 0x7b :: (rjWMembers pretty indent members ++ [0x7d])

/-- The items with what stands between the brackets. -/
def rjWItems (pretty : Bool) : Nat → List JVal → List UInt8
  | _, [] => []
  | indent, [v] =>
      lineBreak pretty ++ pad pretty (indent + 1) ++ rjW pretty (indent + 1) v ++
        lineBreak pretty ++ pad pretty indent
  | indent, v :: rest =>
      lineBreak pretty ++ pad pretty (indent + 1) ++ rjW pretty (indent + 1) v ++ 0x2c ::
        rjWItems pretty indent rest

def rjWMembers (pretty : Bool) : Nat → List (List UInt8 × JVal) → List UInt8
  | _, [] => []
  | indent, [(key, v)] =>
      lineBreak pretty ++ pad pretty (indent + 1) ++ quoted key ++ colon pretty ++
        rjW pretty (indent + 1) v ++ lineBreak pretty ++ pad pretty indent
  | indent, (key, v) :: rest =>
      lineBreak pretty ++ pad pretty (indent + 1) ++ quoted key ++ colon pretty ++
        rjW pretty (indent + 1) v ++ 0x2c :: rjWMembers pretty indent rest

end

/-! ## Reading -/

abbrev JReader (α : Type) : Type := List UInt8 → Option (α × List UInt8)

def isWs (b : UInt8) : Bool := b == 0x20 || b == 0x09 || b == 0x0a || b == 0x0d

def pWs (bs : List UInt8) : List UInt8 := bs.dropWhile isWs

def isDigit (b : UInt8) : Bool := decide (0x30 ≤ b ∧ b ≤ 0x39)

def simpleEscape (e : UInt8) : Option UInt8 :=
  if e = 0x22 then some 0x22
  else if e = 0x5c then some 0x5c
  else if e = 0x2f then some 0x2f
  else if e = 0x62 then some 0x08
  else if e = 0x66 then some 0x0c
  else if e = 0x6e then some 0x0a
  else if e = 0x72 then some 0x0d
  else if e = 0x74 then some 0x09
  else none

def hexVal (h : UInt8) : Option Nat :=
  if 0x30 ≤ h ∧ h ≤ 0x39 then some (h.toNat - 0x30)
  else if 0x61 ≤ h ∧ h ≤ 0x66 then some (h.toNat - 0x61 + 10)
  else if 0x41 ≤ h ∧ h ≤ 0x46 then some (h.toNat - 0x41 + 10)
  else none

def hex4 (h1 h2 h3 h4 : UInt8) : Option Nat :=
  match hexVal h1, hexVal h2, hexVal h3, hexVal h4 with
  | some a, some b, some c, some d => some (((a * 16 + b) * 16 + c) * 16 + d)
  | _, _, _, _ => none

/-- The bytes of a code point of the lowest plane. -/
def utf8 (cp : Nat) : List UInt8 :=
  if cp < 0x80 then [UInt8.ofNat cp]
  else if cp < 0x800 then [UInt8.ofNat (0xc0 + cp / 64), UInt8.ofNat (0x80 + cp % 64)]
  else [UInt8.ofNat (0xe0 + cp / 4096), UInt8.ofNat (0x80 + cp / 64 % 64), UInt8.ofNat (0x80 + cp % 64)]

def pushed (bytes : List UInt8) (p : List UInt8 × List UInt8) : List UInt8 × List UInt8 :=
  (bytes ++ p.1, p.2)

/-- `p_string_core` behind the opening quote. -/
def pStringCore : JReader (List UInt8)
  | [] => none
  | ch :: rest =>
      if ch = 0x22 then some ([], rest)
      else if ch = 0x5c then
        match rest with
        | [] => none
        | e :: rest =>
            match simpleEscape e with
            | some b => (pStringCore rest).map (pushed [b])
            | none =>
                if e = 0x75 then
                  match rest with
                  | h1 :: h2 :: h3 :: h4 :: rest =>
                      match hex4 h1 h2 h3 h4 with
                      | some cp => (pStringCore rest).map (pushed (utf8 cp))
                      | none => none
                  | _ => none
                else none
      else if ch < 0x20 then none
      else (pStringCore rest).map (pushed [ch])

/-- A string of C. -/
def cstr (s : List UInt8) : List UInt8 := s.takeWhile (· ≠ 0)

def pDigits (bs : List UInt8) : List UInt8 × List UInt8 := (bs.takeWhile isDigit, bs.dropWhile isDigit)

def pSign (bs : List UInt8) : List UInt8 × List UInt8 :=
  match bs with
  | ch :: rest => if ch = 0x2d then ([ch], rest) else ([], bs)
  | [] => ([], [])

def pInt : JReader (List UInt8) := fun bs =>
  let (ds, rest) := pDigits bs
  if ds = [] ∨ 1 < ds.length ∧ ds.head? = some 0x30 then none else some (ds, rest)

def pFrac : JReader (List UInt8)
  | [] => some ([], [])
  | ch :: rest =>
      if ch = 0x2e then
        let (ds, rest) := pDigits rest
        if ds = [] then none else some (ch :: ds, rest)
      else some ([], ch :: rest)

def pExpSign (bs : List UInt8) : List UInt8 × List UInt8 :=
  match bs with
  | ch :: rest => if ch = 0x2b ∨ ch = 0x2d then ([ch], rest) else ([], bs)
  | [] => ([], [])

def pExp : JReader (List UInt8)
  | [] => some ([], [])
  | ch :: rest =>
      if ch = 0x65 ∨ ch = 0x45 then
        let (sign, rest) := pExpSign rest
        let (ds, rest) := pDigits rest
        if ds = [] then none else some (ch :: (sign ++ ds), rest)
      else some ([], ch :: rest)

def pNumber : JReader (List UInt8) := fun bs =>
  let (sign, rest) := pSign bs
  match pInt rest with
  | none => none
  | some (int, rest) =>
      match pFrac rest with
      | none => none
      | some (frac, rest) =>
          match pExp rest with
          | none => none
          | some (exp, rest) => some (sign ++ int ++ frac ++ exp, rest)

section Containers

variable (pv : JReader JVal)

/-- The loop over the items of an array; each round takes a byte. -/
def pItems : Nat → JReader (List JVal)
  | 0, _ => none
  | k + 1, bs =>
      match pv bs with
      | none => none
      | some (v, rest) =>
          match pWs rest with
          | [] => none
          | ch :: rest =>
              if ch = 0x2c then (pItems k rest).map fun p => (v :: p.1, p.2)
              else if ch = 0x5d then some ([v], rest)
              else none

/-- A key, the colon and the value. -/
def pMember : JReader (List UInt8 × JVal) := fun bs =>
  match pWs bs with
  | [] => none
  | ch :: rest =>
      if ch ≠ 0x22 then none
      else
        match pStringCore rest with
        | none => none
        | some (key, rest) =>
            match pWs rest with
            | [] => none
            | ch :: rest => if ch ≠ 0x3a then none else (pv rest).map fun p => ((cstr key, p.1), p.2)

def pMembers : Nat → JReader (List (List UInt8 × JVal))
  | 0, _ => none
  | k + 1, bs =>
      match pMember pv bs with
      | none => none
      | some (m, rest) =>
          match pWs rest with
          | [] => none
          | ch :: rest =>
              if ch = 0x2c then (pMembers k rest).map fun p => (m :: p.1, p.2)
              else if ch = 0x7d then some ([m], rest)
              else none

/-- What follows an opening bracket. -/
def pArr (bs : List UInt8) : Option (JVal × List UInt8) :=
  match pWs bs with
  | ch :: rest =>
      if ch = 0x5d then some (.arr [], rest)
      else (pItems pv (ch :: rest).length (ch :: rest)).map fun p => (.arr p.1, p.2)
  | [] => none

def pObj (bs : List UInt8) : Option (JVal × List UInt8) :=
  match pWs bs with
  | ch :: rest =>
      if ch = 0x7d then some (.obj [], rest)
      else (pMembers pv (ch :: rest).length (ch :: rest)).map fun p => (.obj p.1, p.2)
  | [] => none

end Containers

def pScalar (bs : List UInt8) : Option (JVal × List UInt8) :=
  if bs.take 4 = trueText then some (.bool true, bs.drop 4)
  else if bs.take 5 = falseText then some (.bool false, bs.drop 5)
  else if bs.take 4 = nullText then some (.null, bs.drop 4)
  else if bs.head?.any fun ch => ch == 0x2d || isDigit ch then
    (pNumber bs).map fun p => (.num p.1, p.2)
  else none

/-- A value whose containers' contents `inner` reads, none at the greatest depth. -/
def pValWith (inner : Option (JReader JVal)) : JReader JVal := fun bs =>
  match pWs bs with
  | [] => none
  | ch :: rest =>
      if ch = 0x22 then (pStringCore rest).map fun p => (.str (cstr p.1), p.2)
      else if ch = 0x7b then inner.bind fun pv => pObj pv rest
      else if ch = 0x5b then inner.bind fun pv => pArr pv rest
      else pScalar (ch :: rest)

/-- `p_val` with so many levels left. -/
def pVal : Nat → JReader JVal
  | 0 => pValWith none
  | d + 1 => pValWith (some (pVal d))

def rjMaxDepth : Nat := 512

def rjParse (text : List UInt8) : Option JVal :=
  match pVal rjMaxDepth text with
  | none => none
  | some (v, rest) => if pWs rest = [] then some v else none

/-! ## Strings -/

theorem escapeOf_plain {b : UInt8} (h : escNeeded b = false) : escapeOf b = [b] := by
  simp only [escNeeded, Bool.or_eq_false_iff, decide_eq_false_iff_not, beq_eq_false_iff_ne] at h
  obtain ⟨⟨⟨hlow, hquote⟩, hslash⟩, hdel⟩ := h
  have hsmall : ∀ c : UInt8, c < 0x20 → b ≠ c := fun c hc hb => hlow (hb ▸ hc)
  simp [escapeOf, hquote, hslash, hdel, hlow, hsmall 0x08 (by decide), hsmall 0x0c (by decide),
    hsmall 0x0a (by decide), hsmall 0x0d (by decide), hsmall 0x09 (by decide)]

theorem flatMap_escapeOf_plain {s : List UInt8} (h : ∀ b ∈ s, escNeeded b = false) :
    s.flatMap escapeOf = s := by
  induction s with
  | nil => rfl
  | cons b s ih =>
      rw [List.flatMap_cons, escapeOf_plain (h b List.mem_cons_self),
        ih fun x hx => h x (List.mem_cons_of_mem _ hx)]
      rfl

/-- Copying by stretches writes every byte on its own. -/
theorem appendEscaped_eq {s : List UInt8} (h : 0 ∉ s) : appendEscaped s = s.flatMap escapeOf := by
  fun_induction appendEscaped s with
  | case1 => rfl
  | case2 rest => exact absurd List.mem_cons_self h
  | case3 b rest hb hneeded ih =>
      rw [List.flatMap_cons, ih fun hz => h (List.mem_cons_of_mem _ hz)]
  | case4 b rest hb hplain ih =>
      have hrest : 0 ∉ rest.dropWhile fun q => !escNeeded q :=
        fun hz => h (List.mem_cons_of_mem _ ((List.dropWhile_suffix _).subset hz))
      have hrun : ∀ x ∈ rest.takeWhile fun q => !escNeeded q, escNeeded x = false := by
        intro x hx
        simpa using List.mem_takeWhile_imp hx
      have hsplit : rest.flatMap escapeOf =
          (rest.takeWhile fun q => !escNeeded q) ++
            (rest.dropWhile fun q => !escNeeded q).flatMap escapeOf := by
        conv_lhs => rw [← List.takeWhile_append_dropWhile (p := fun q => !escNeeded q) (l := rest)]
        rw [List.flatMap_append, flatMap_escapeOf_plain hrun]
      rw [List.flatMap_cons, escapeOf_plain (by simpa using hplain), ih hrest, hsplit]
      rfl

theorem hexVal_hexDigit : ∀ n < 16, hexVal (hexDigit n) = some n := by decide

theorem hex4_byte (b : UInt8) :
    hex4 0x30 0x30 (hexDigit (b.toNat / 16)) (hexDigit (b.toNat % 16)) = some b.toNat := by
  have hb := b.toNat_lt
  have hzero : hexVal 0x30 = some 0 := rfl
  rw [hex4, hzero, hexVal_hexDigit _ (by omega), hexVal_hexDigit _ (by omega)]
  simp only [Option.some.injEq]
  omega

theorem pStringCore_quote (rest : List UInt8) : pStringCore (0x22 :: rest) = some ([], rest) := by
  rw [pStringCore.eq_def]
  simp

theorem pStringCore_plain {ch : UInt8} (hquote : ch ≠ 0x22) (hslash : ch ≠ 0x5c) (hlow : ¬ ch < 0x20)
    (rest : List UInt8) : pStringCore (ch :: rest) = (pStringCore rest).map (pushed [ch]) := by
  rw [pStringCore.eq_def]
  simp [hquote, hslash, hlow]

/-- What was escaped is read as the byte it stands for. -/
theorem pStringCore_escapeOf (b : UInt8) (more : List UInt8) :
    pStringCore (escapeOf b ++ more) = (pStringCore more).map (pushed [b]) := by
  unfold escapeOf
  split_ifs with h1 h2 h3 h4 h5 h6 h7 h8
  on_goal 8 =>
    have hlow : b.toNat < 0x80 := by
      rcases h8 with hlt | rfl
      · have := UInt8.lt_iff_toNat_lt.mp hlt
        simp at this
        omega
      · decide
    have hutf : utf8 b.toNat = [b] := by
      rw [utf8, if_pos hlow, UInt8.ofNat_toNat]
    rw [pStringCore.eq_def]
    simp [simpleEscape, hex4_byte, hutf]
  on_goal 8 => exact pStringCore_plain h1 h2 (fun hlt => h8 (.inl hlt)) more
  all_goals
    subst b
    rw [pStringCore.eq_def]
    simp [simpleEscape]

theorem pStringCore_flatMap (s rest : List UInt8) :
    pStringCore (s.flatMap escapeOf ++ 0x22 :: rest) = some (s, rest) := by
  induction s with
  | nil => exact pStringCore_quote rest
  | cons b s ih =>
      rw [List.flatMap_cons, List.append_assoc, pStringCore_escapeOf, ih]
      rfl

theorem cstr_eq {s : List UInt8} (h : 0 ∉ s) : cstr s = s := by
  apply List.takeWhile_eq_self_iff.mpr
  intro b hb
  simp only [ne_eq, decide_not, Bool.not_eq_eq_eq_not, Bool.not_true, decide_eq_false_iff_not]
  rintro rfl
  exact h hb

theorem zero_not_mem_cstr (s : List UInt8) : 0 ∉ cstr s := by
  intro h
  simpa using List.mem_takeWhile_imp h

/-! ## Numbers -/

def IsDigits (ds : List UInt8) : Prop := ds ≠ [] ∧ ∀ b ∈ ds, isDigit b = true

/-- An optional fraction of a number. -/
def IsFrac (t : List UInt8) : Prop := t = [] ∨ ∃ ds, IsDigits ds ∧ t = 0x2e :: ds

def IsExp (t : List UInt8) : Prop :=
  t = [] ∨ ∃ e sign ds, (e = 0x65 ∨ e = 0x45) ∧ (sign = [] ∨ sign = [0x2b] ∨ sign = [0x2d]) ∧
    IsDigits ds ∧ t = e :: (sign ++ ds)

/-- The text of a number in JSON: a sign, digits with no zero before others, a fraction and an
exponent. -/
def JsonNumber (t : List UInt8) : Prop :=
  ∃ sign int frac exp, (sign = [] ∨ sign = [0x2d]) ∧
    (IsDigits int ∧ ¬ (1 < int.length ∧ int.head? = some 0x30)) ∧ IsFrac frac ∧ IsExp exp ∧
      t = sign ++ (int ++ (frac ++ exp))

/-- No digit follows. -/
def NoDigit (rest : List UInt8) : Prop := ∀ ch ∈ rest.head?, isDigit ch = false

/-- Nothing follows that would belong to a number. -/
def Stops (rest : List UInt8) : Prop :=
  ∀ ch ∈ rest.head?, isDigit ch = false ∧ ch ≠ 0x2e ∧ ch ≠ 0x65 ∧ ch ≠ 0x45

theorem pDigits_append {ds rest : List UInt8} (hds : ∀ b ∈ ds, isDigit b = true) (hrest : NoDigit rest) :
    pDigits (ds ++ rest) = (ds, rest) := by
  have hstop : rest.takeWhile isDigit = [] ∧ rest.dropWhile isDigit = rest := by
    cases rest with
    | nil => exact ⟨rfl, rfl⟩
    | cons ch rest =>
        have := hrest ch rfl
        simp [this]
  rw [pDigits, List.takeWhile_append_of_pos hds, List.dropWhile_append_of_pos hds, hstop.1, hstop.2,
    List.append_nil]

theorem pInt_append {int rest : List UInt8} (hint : IsDigits int)
    (hzero : ¬ (1 < int.length ∧ int.head? = some 0x30)) (hrest : NoDigit rest) :
    pInt (int ++ rest) = some (int, rest) := by
  simp only [pInt, pDigits_append hint.2 hrest]
  rw [if_neg (by rintro (h | h) <;> [exact hint.1 h; exact hzero h])]

theorem pFrac_append {frac rest : List UInt8} (hfrac : IsFrac frac) (hrest : NoDigit rest)
    (hdot : ∀ ch ∈ rest.head?, ch ≠ 0x2e) : pFrac (frac ++ rest) = some (frac, rest) := by
  rcases hfrac with rfl | ⟨ds, hds, rfl⟩
  · cases rest with
    | nil => rfl
    | cons ch rest => simp [pFrac, hdot ch rfl]
  · simp [pFrac, pDigits_append hds.2 hrest, hds.1]

theorem pExpSign_append {sign ds rest : List UInt8} (hsign : sign = [] ∨ sign = [0x2b] ∨ sign = [0x2d])
    (hds : IsDigits ds) : pExpSign (sign ++ (ds ++ rest)) = (sign, ds ++ rest) := by
  rcases hsign with rfl | rfl | rfl
  · obtain ⟨b, ds', rfl⟩ := List.exists_cons_of_ne_nil hds.1
    have hb := hds.2 b List.mem_cons_self
    have hne : ¬ (b = 0x2b ∨ b = 0x2d) := by
      rintro (rfl | rfl) <;> exact absurd hb (by decide)
    simp [pExpSign, hne]
  · simp [pExpSign]
  · simp [pExpSign]

theorem pExp_append {exp rest : List UInt8} (hexp : IsExp exp) (hrest : Stops rest) :
    pExp (exp ++ rest) = some (exp, rest) := by
  rcases hexp with rfl | ⟨e, sign, ds, he, hsign, hds, rfl⟩
  · cases rest with
    | nil => rfl
    | cons ch rest =>
        have := hrest ch rfl
        simp [pExp, this.2.2.1, this.2.2.2]
  · have hdigits := pDigits_append hds.2 (fun ch hch => (hrest ch hch).1)
    simp [pExp, he, List.append_assoc, pExpSign_append hsign hds, hdigits, hds.1]

theorem pSign_append {sign int rest : List UInt8} (hsign : sign = [] ∨ sign = [0x2d])
    (hint : IsDigits int) : pSign (sign ++ (int ++ rest)) = (sign, int ++ rest) := by
  rcases hsign with rfl | rfl
  · obtain ⟨b, int', rfl⟩ := List.exists_cons_of_ne_nil hint.1
    have hb := hint.2 b List.mem_cons_self
    have hne : b ≠ 0x2d := by
      rintro rfl
      exact absurd hb (by decide)
    simp [pSign, hne]
  · simp [pSign]

theorem Stops.exp_append {exp rest : List UInt8} (hexp : IsExp exp) (hrest : Stops rest) :
    NoDigit (exp ++ rest) ∧ ∀ ch ∈ (exp ++ rest).head?, ch ≠ 0x2e := by
  rcases hexp with rfl | ⟨e, sign, ds, he, -, -, rfl⟩
  · exact ⟨fun ch hch => (hrest ch hch).1, fun ch hch => (hrest ch hch).2.1⟩
  · constructor
    · intro ch hch
      obtain rfl : e = ch := by simpa using hch
      rcases he with rfl | rfl <;> decide
    · intro ch hch
      obtain rfl : e = ch := by simpa using hch
      rcases he with rfl | rfl <;> decide

theorem noDigit_frac_append {frac rest : List UInt8} (hfrac : IsFrac frac) (hrest : NoDigit rest) :
    NoDigit (frac ++ rest) := by
  rcases hfrac with rfl | ⟨ds, -, rfl⟩
  · exact hrest
  · intro ch hch
    obtain rfl : 0x2e = ch := by simpa using hch
    decide

/-- A number is read to its end. -/
theorem pNumber_append {t rest : List UInt8} (ht : JsonNumber t) (hrest : Stops rest) :
    pNumber (t ++ rest) = some (t, rest) := by
  obtain ⟨sign, int, frac, exp, hsign, ⟨hint, hzero⟩, hfrac, hexp, rfl⟩ := ht
  obtain ⟨hnodigit, hdot⟩ := hrest.exp_append hexp
  have hassoc : sign ++ (int ++ (frac ++ exp)) ++ rest =
      sign ++ (int ++ (frac ++ (exp ++ rest))) := by simp
  rw [hassoc, pNumber, pSign_append hsign hint]
  simp only [pInt_append hint hzero (noDigit_frac_append hfrac hnodigit),
    pFrac_append hfrac hnodigit hdot, pExp_append hexp hrest, List.append_assoc]

theorem pDigits_spec (bs : List UInt8) :
    (∀ b ∈ (pDigits bs).1, isDigit b = true) ∧ (pDigits bs).1 ++ (pDigits bs).2 = bs :=
  ⟨fun _ hb => List.mem_takeWhile_imp hb, List.takeWhile_append_dropWhile⟩

theorem pSign_spec (bs : List UInt8) :
    ((pSign bs).1 = [] ∨ (pSign bs).1 = [0x2d]) ∧ (pSign bs).1 ++ (pSign bs).2 = bs := by
  unfold pSign
  split
  · split
    · next h => exact ⟨.inr (by rw [h]), rfl⟩
    · exact ⟨.inl rfl, rfl⟩
  · exact ⟨.inl rfl, rfl⟩

theorem pExpSign_spec (bs : List UInt8) :
    ((pExpSign bs).1 = [] ∨ (pExpSign bs).1 = [0x2b] ∨ (pExpSign bs).1 = [0x2d]) ∧
      (pExpSign bs).1 ++ (pExpSign bs).2 = bs := by
  unfold pExpSign
  split
  · split
    · next h => exact ⟨.inr (by rcases h with rfl | rfl <;> simp), rfl⟩
    · exact ⟨.inl rfl, rfl⟩
  · exact ⟨.inl rfl, rfl⟩

theorem pInt_eq_some {bs int rest : List UInt8} (h : pInt bs = some (int, rest)) :
    (IsDigits int ∧ ¬ (1 < int.length ∧ int.head? = some 0x30)) ∧ bs = int ++ rest := by
  obtain ⟨hdigits, hsplit⟩ := pDigits_spec bs
  simp only [pInt] at h
  split at h
  · cases h
  · next hok =>
      obtain ⟨rfl, rfl⟩ := by simpa using h
      rw [not_or] at hok
      exact ⟨⟨⟨hok.1, hdigits⟩, hok.2⟩, hsplit.symm⟩

theorem pFrac_eq_some {bs frac rest : List UInt8} (h : pFrac bs = some (frac, rest)) :
    IsFrac frac ∧ bs = frac ++ rest := by
  cases bs with
  | nil =>
      obtain ⟨rfl, rfl⟩ := by simpa [pFrac] using h
      exact ⟨.inl rfl, rfl⟩
  | cons ch bs =>
      obtain ⟨hdigits, hsplit⟩ := pDigits_spec bs
      simp only [pFrac] at h
      split at h
      · next hch =>
          subst hch
          split at h
          · cases h
          · next hne =>
              obtain ⟨rfl, rfl⟩ := by simpa using h
              exact ⟨.inr ⟨_, ⟨hne, hdigits⟩, rfl⟩, by simp [hsplit]⟩
      · obtain ⟨rfl, rfl⟩ := by simpa using h
        exact ⟨.inl rfl, rfl⟩

theorem pExp_eq_some {bs exp rest : List UInt8} (h : pExp bs = some (exp, rest)) :
    IsExp exp ∧ bs = exp ++ rest := by
  cases bs with
  | nil =>
      obtain ⟨rfl, rfl⟩ := by simpa [pExp] using h
      exact ⟨.inl rfl, rfl⟩
  | cons ch bs =>
      obtain ⟨hsign, hsplit⟩ := pExpSign_spec bs
      obtain ⟨hdigits, hsplit'⟩ := pDigits_spec (pExpSign bs).2
      simp only [pExp] at h
      split at h
      · next hch =>
          split at h
          · cases h
          · next hne =>
              obtain ⟨rfl, rfl⟩ := by simpa using h
              refine ⟨.inr ⟨ch, _, _, hch, hsign, ⟨hne, hdigits⟩, rfl⟩, ?_⟩
              simp [hsplit, hsplit']
      · obtain ⟨rfl, rfl⟩ := by simpa using h
        exact ⟨.inl rfl, rfl⟩

/-- What is read as a number is one. -/
theorem pNumber_eq_some {bs t rest : List UInt8} (h : pNumber bs = some (t, rest)) :
    JsonNumber t ∧ bs = t ++ rest := by
  obtain ⟨hsign, hsplit⟩ := pSign_spec bs
  simp only [pNumber] at h
  split at h
  · cases h
  next int r1 hint =>
  split at h
  · cases h
  next frac r2 hfrac =>
  split at h
  · cases h
  next exp r3 hexp =>
  obtain ⟨rfl, rfl⟩ := by simpa using h
  obtain ⟨hint', hr1⟩ := pInt_eq_some hint
  obtain ⟨hfrac', hr2⟩ := pFrac_eq_some hfrac
  obtain ⟨hexp', hr3⟩ := pExp_eq_some hexp
  refine ⟨⟨_, int, frac, exp, hsign, hint', hfrac', hexp', by simp⟩, ?_⟩
  calc bs = (pSign bs).1 ++ (pSign bs).2 := hsplit.symm
    _ = (pSign bs).1 ++ (int ++ (frac ++ (exp ++ r3))) := by rw [hr1, hr2, hr3]
    _ = _ := by simp

/-! ## Trees -/

mutual

/-- How many containers stand within one another. -/
def JVal.depth : JVal → Nat
  | .arr items => depthItems items + 1
  | .obj members => depthMembers members + 1
  | _ => 0

def depthItems : List JVal → Nat
  | [] => 0
  | v :: rest => max v.depth (depthItems rest)

def depthMembers : List (List UInt8 × JVal) → Nat
  | [] => 0
  | (_, v) :: rest => max v.depth (depthMembers rest)

end

mutual

/-- What the constructors make: strings without a NUL, and number texts in JSON's syntax. -/
def JVal.Valid : JVal → Prop
  | .num text => JsonNumber text
  | .str s => 0 ∉ s
  | .arr items => ValidItems items
  | .obj members => ValidMembers members
  | _ => True

def ValidItems : List JVal → Prop
  | [] => True
  | v :: rest => v.Valid ∧ ValidItems rest

def ValidMembers : List (List UInt8 × JVal) → Prop
  | [] => True
  | (key, v) :: rest => 0 ∉ key ∧ v.Valid ∧ ValidMembers rest

end

/-! ## Blanks between the values -/

theorem pWs_append {ws : List UInt8} (h : ∀ b ∈ ws, isWs b = true) (bs : List UInt8) :
    pWs (ws ++ bs) = pWs bs :=
  List.dropWhile_append_of_pos h

theorem pWs_cons {ch : UInt8} (h : isWs ch = false) (bs : List UInt8) : pWs (ch :: bs) = ch :: bs := by
  simp [pWs, h]

theorem pWs_pWs (bs : List UInt8) : pWs (pWs bs) = pWs bs :=
  List.dropWhile_idempotent (p := isWs) (l := bs)

theorem isWs_lineBreak (pretty : Bool) : ∀ b ∈ lineBreak pretty, isWs b = true := by
  cases pretty <;> simp [lineBreak, isWs]

theorem isWs_pad (pretty : Bool) (indent : Nat) : ∀ b ∈ pad pretty indent, isWs b = true := by
  intro b hb
  cases pretty with
  | false => cases hb
  | true =>
      obtain ⟨-, rfl⟩ := List.mem_replicate.mp hb
      decide

theorem pWs_break (pretty : Bool) (indent : Nat) (bs : List UInt8) :
    pWs (lineBreak pretty ++ (pad pretty indent ++ bs)) = pWs bs := by
  rw [pWs_append (isWs_lineBreak pretty), pWs_append (isWs_pad pretty indent)]

/-- A bracket or a comma ends a number, and so does a blank. -/
theorem stops_cons {ch : UInt8} {rest : List UInt8}
    (h : isDigit ch = false ∧ ch ≠ 0x2e ∧ ch ≠ 0x65 ∧ ch ≠ 0x45) : Stops (ch :: rest) := by
  intro b hb
  obtain rfl : ch = b := by simpa using hb
  exact h

theorem stops_break (pretty : Bool) (indent : Nat) {ch : UInt8} {rest : List UInt8}
    (h : isDigit ch = false ∧ ch ≠ 0x2e ∧ ch ≠ 0x65 ∧ ch ≠ 0x45) :
    Stops (lineBreak pretty ++ (pad pretty indent ++ ch :: rest)) := by
  cases pretty with
  | false => exact stops_cons h
  | true => exact stops_cons (by decide)

/-- A reader that passes over the blanks in front of it. -/
def SkipsWs (pv : JReader JVal) : Prop := ∀ bs, pv (pWs bs) = pv bs

theorem skipsWs_pVal (d : Nat) : SkipsWs (pVal d) := by
  intro bs
  cases d <;> simp only [pVal, pValWith, pWs_pWs]

theorem SkipsWs.pItems {pv : JReader JVal} (hpv : SkipsWs pv) (k : Nat) (bs : List UInt8) :
    pItems pv k (pWs bs) = pItems pv k bs := by
  cases k with
  | zero => rfl
  | succ k => simp only [Rpc.pItems, hpv bs]

theorem pMembers_pWs (pv : JReader JVal) (k : Nat) (bs : List UInt8) :
    pMembers pv k (pWs bs) = pMembers pv k bs := by
  cases k with
  | zero => rfl
  | succ k => simp only [pMembers, pMember, pWs_pWs]

/-! ## What was written is read -/

theorem pStringCore_quoted {s : List UInt8} (h : 0 ∉ s) (rest : List UInt8) :
    ∃ t, quoted s ++ rest = 0x22 :: t ∧ pStringCore t = some (s, rest) := by
  refine ⟨appendEscaped s ++ 0x22 :: rest, by simp [quoted], ?_⟩
  rw [appendEscaped_eq h, pStringCore_flatMap]

theorem JsonNumber.head {t : List UInt8} (ht : JsonNumber t) :
    ∃ ch more, t = ch :: more ∧ (ch == 0x2d || isDigit ch) = true := by
  obtain ⟨sign, int, frac, exp, hsign, ⟨⟨hne, hdigit⟩, -⟩, -, -, rfl⟩ := ht
  obtain ⟨b, int, rfl⟩ := List.exists_cons_of_ne_nil hne
  rcases hsign with rfl | rfl
  · exact ⟨b, _, rfl, by simp [hdigit b List.mem_cons_self]⟩
  · exact ⟨0x2d, _, rfl, by simp⟩

/-- What a sign or a digit is not. -/
theorem number_head_ne {ch : UInt8} (h : (ch == 0x2d || isDigit ch) = true) :
    isWs ch = false ∧ ch ≠ 0x22 ∧ ch ≠ 0x7b ∧ ch ≠ 0x5b ∧ ch ≠ 0x5d ∧ ch ≠ 0x74 ∧ ch ≠ 0x66 ∧
      ch ≠ 0x6e := by
  have hne : ∀ c, (c == 0x2d || isDigit c) = false → ch ≠ c := by
    rintro c hc rfl
    rw [h] at hc
    cases hc
  have hws : isWs ch = false := by
    simp [isWs, hne 0x20 (by decide), hne 0x09 (by decide), hne 0x0a (by decide), hne 0x0d (by decide)]
  exact ⟨hws, hne _ (by decide), hne _ (by decide), hne _ (by decide), hne _ (by decide),
    hne _ (by decide), hne _ (by decide), hne _ (by decide)⟩

theorem pVal_number {t rest : List UInt8} (ht : JsonNumber t) (hrest : Stops rest)
    (inner : Option (JReader JVal)) : pValWith inner (t ++ rest) = some (.num t, rest) := by
  have hread := pNumber_append ht hrest
  obtain ⟨ch, more, rfl, hch⟩ := ht.head
  obtain ⟨hws, hquote, hobj, harr, -, ht', hf, hn⟩ := number_head_ne hch
  simp only [List.cons_append] at hread
  simp [pValWith, pWs_cons hws, pScalar, hquote, hobj, harr, ht', hf, hn, trueText, falseText, nullText,
    hread, Option.any, hch]

theorem rjW_head (pretty : Bool) (indent : Nat) {v : JVal} (hv : v.Valid) :
    ∃ ch t, rjW pretty indent v = ch :: t ∧ isWs ch = false ∧ ch ≠ 0x5d := by
  cases v with
  | null => exact ⟨0x6e, _, rfl, by decide⟩
  | bool b =>
      cases b with
      | false => exact ⟨0x66, _, rfl, by decide⟩
      | true => exact ⟨0x74, _, rfl, by decide⟩
  | num text =>
      simp only [JVal.Valid] at hv
      obtain ⟨ch, more, rfl, hch⟩ := hv.head
      have := number_head_ne hch
      exact ⟨ch, more, rfl, this.1, this.2.2.2.2.1⟩
  | str s => exact ⟨0x22, _, rfl, by decide⟩
  | arr items => exact ⟨0x5b, _, rfl, by decide⟩
  | obj members => exact ⟨0x7b, _, rfl, by decide⟩

/-! Each item leaves its own comma, or stands before the bracket: the loop's bound is enough. -/

theorem countP_le_length_pWs (bs : List UInt8) : bs.countP (fun b => !isWs b) ≤ (pWs bs).length := by
  have hsplit : bs.takeWhile isWs ++ pWs bs = bs := List.takeWhile_append_dropWhile
  have hzero : (bs.takeWhile isWs).countP (fun b => !isWs b) = 0 := by
    apply List.countP_eq_zero.mpr
    intro b hb
    simp [List.mem_takeWhile_imp hb]
  calc bs.countP (fun b => !isWs b)
      = (bs.takeWhile isWs ++ pWs bs).countP (fun b => !isWs b) := by rw [hsplit]
    _ = (pWs bs).countP (fun b => !isWs b) := by rw [List.countP_append, hzero, Nat.zero_add]
    _ ≤ (pWs bs).length := List.countP_le_length

theorem length_le_countP_items (pretty : Bool) (indent : Nat) (items : List JVal) (rest : List UInt8) :
    items.length ≤ (rjWItems pretty indent items ++ 0x5d :: rest).countP fun b => !isWs b := by
  have hclose : isWs 0x5d = false := by decide
  have hcomma : isWs 0x2c = false := by decide
  induction items with
  | nil => exact Nat.zero_le _
  | cons v items ih =>
      cases items with
      | nil =>
          simp [rjWItems, hclose]
          omega
      | cons w items =>
          simp only [List.countP_append, List.countP_cons, hclose] at ih
          simp only [rjWItems, List.countP_append, List.countP_cons, hclose, hcomma,
            List.length_cons] at ih ⊢
          simp at ih ⊢
          omega

theorem length_le_countP_members (pretty : Bool) (indent : Nat) (members : List (List UInt8 × JVal))
    (rest : List UInt8) :
    members.length ≤ (rjWMembers pretty indent members ++ 0x7d :: rest).countP fun b => !isWs b := by
  have hclose : isWs 0x7d = false := by decide
  have hcomma : isWs 0x2c = false := by decide
  induction members with
  | nil => exact Nat.zero_le _
  | cons m members ih =>
      obtain ⟨key, v⟩ := m
      cases members with
      | nil =>
          simp [rjWMembers, hclose]
          omega
      | cons w members =>
          simp only [List.countP_append, List.countP_cons, hclose] at ih
          simp only [rjWMembers, List.countP_append, List.countP_cons, hclose, hcomma,
            List.length_cons] at ih ⊢
          simp at ih ⊢
          omega

theorem pArr_items {d : Nat} {pretty : Bool} {indent : Nat} {items : List JVal} {rest : List UInt8}
    (hne : items ≠ []) (hvalid : ValidItems items)
    (h : ∀ k, items.length ≤ k →
      pItems (pVal d) k (rjWItems pretty indent items ++ 0x5d :: rest) = some (items, rest)) :
    pArr (pVal d) (rjWItems pretty indent items ++ 0x5d :: rest) = some (.arr items, rest) := by
  have hlen := (length_le_countP_items pretty indent items rest).trans (countP_le_length_pWs _)
  have hread := h _ hlen
  rw [← (skipsWs_pVal d).pItems] at hread
  obtain ⟨ch, t, ht, hclose⟩ : ∃ ch t,
      pWs (rjWItems pretty indent items ++ 0x5d :: rest) = ch :: t ∧ ch ≠ 0x5d := by
    obtain ⟨v, items, rfl⟩ := List.exists_cons_of_ne_nil hne
    obtain ⟨ch, t, ht, hws, hclose⟩ := rjW_head pretty (indent + 1) (show v.Valid from hvalid.1)
    cases items <;>
      simp only [rjWItems, ht, List.append_assoc, pWs_break, List.cons_append, pWs_cons hws] <;>
      exact ⟨ch, _, rfl, hclose⟩
  rw [ht] at hread
  simp only [pArr, ht, if_neg hclose, hread, Option.map_some]

theorem pObj_members {d : Nat} {pretty : Bool} {indent : Nat} {members : List (List UInt8 × JVal)}
    {rest : List UInt8} (hne : members ≠ [])
    (h : ∀ k, members.length ≤ k →
      pMembers (pVal d) k (rjWMembers pretty indent members ++ 0x7d :: rest) = some (members, rest)) :
    pObj (pVal d) (rjWMembers pretty indent members ++ 0x7d :: rest) = some (.obj members, rest) := by
  have hlen := (length_le_countP_members pretty indent members rest).trans (countP_le_length_pWs _)
  have hread := h _ hlen
  rw [← pMembers_pWs] at hread
  obtain ⟨ch, t, ht, hclose⟩ : ∃ ch t,
      pWs (rjWMembers pretty indent members ++ 0x7d :: rest) = ch :: t ∧ ch ≠ 0x7d := by
    obtain ⟨⟨key, v⟩, members, rfl⟩ := List.exists_cons_of_ne_nil hne
    have hws : isWs 0x22 = false := by decide
    cases members <;>
      simp only [rjWMembers, quoted, List.append_assoc, pWs_break, List.cons_append, pWs_cons hws] <;>
      exact ⟨0x22, _, rfl, by decide⟩
  rw [ht] at hread
  simp only [pObj, ht, if_neg hclose, hread, Option.map_some]

theorem SkipsWs.colon {pv : JReader JVal} (hpv : SkipsWs pv) (pretty : Bool) (bs : List UInt8) :
    ∃ t, colon pretty ++ bs = 0x3a :: t ∧ pv t = pv bs := by
  cases pretty with
  | false => exact ⟨bs, rfl, rfl⟩
  | true =>
      refine ⟨0x20 :: bs, rfl, ?_⟩
      rw [← hpv, ← hpv bs]
      rfl

theorem pMember_append {pv : JReader JVal} (hpv : SkipsWs pv) {key text rest : List UInt8} {v : JVal}
    (hkey : 0 ∉ key) (hv : pv (text ++ rest) = some (v, rest)) (pretty : Bool) (indent : Nat) :
    pMember pv (lineBreak pretty ++ (pad pretty indent ++ (quoted key ++ (colon pretty ++ (text ++ rest))))) =
      some ((key, v), rest) := by
  have hquote : isWs 0x22 = false := by decide
  have hcolon : isWs 0x3a = false := by decide
  obtain ⟨after, hafter, hskip⟩ := hpv.colon pretty (text ++ rest)
  obtain ⟨t, ht, hread⟩ := pStringCore_quoted hkey (colon pretty ++ (text ++ rest))
  rw [pMember, pWs_break, ht, pWs_cons hquote]
  simp [hread, hafter, pWs_cons hcolon, hskip, hv, cstr_eq hkey]

mutual

/-- A value written at any indent is read back, whatever follows that is no part of a number. -/
theorem pVal_rjW (pretty : Bool) : ∀ (v : JVal) (d indent : Nat) (rest : List UInt8), v.Valid →
    v.depth ≤ d → Stops rest → pVal d (rjW pretty indent v ++ rest) = some (v, rest)
  | .null, d, indent, rest, _, _, _ => by cases d <;> rfl
  | .bool b, d, indent, rest, _, _, _ => by cases d <;> cases b <;> rfl
  | .num text, d, indent, rest, hv, _, hrest => by
      simp only [JVal.Valid] at hv
      cases d <;> exact pVal_number hv hrest _
  | .str s, d, indent, rest, hv, _, _ => by
      simp only [JVal.Valid] at hv
      obtain ⟨t, ht, hread⟩ := pStringCore_quoted hv rest
      have hquote : isWs 0x22 = false := by decide
      cases d <;> simp [rjW, ht, pVal, pValWith, pWs_cons hquote, hread, cstr_eq hv]
  | .arr items, d, indent, rest, hv, hd, _ => by
      simp only [JVal.Valid] at hv
      simp only [JVal.depth] at hd
      have hopen : isWs 0x5b = false := by decide
      obtain ⟨d, rfl⟩ := Nat.exists_eq_succ_of_ne_zero (show d ≠ 0 by omega)
      by_cases hne : items = []
      · subst hne
        rfl
      · have hread := pArr_items hne hv fun k hk =>
          pItems_rjWItems pretty items d indent k rest hne hv (by omega) hk
        simp [rjW, pVal, pValWith, pWs_cons hopen, hread]
  | .obj members, d, indent, rest, hv, hd, _ => by
      simp only [JVal.Valid] at hv
      simp only [JVal.depth] at hd
      have hopen : isWs 0x7b = false := by decide
      obtain ⟨d, rfl⟩ := Nat.exists_eq_succ_of_ne_zero (show d ≠ 0 by omega)
      by_cases hne : members = []
      · subst hne
        rfl
      · have hread := pObj_members hne fun k hk =>
          pMembers_rjWMembers pretty members d indent k rest hne hv (by omega) hk
        simp [rjW, pVal, pValWith, pWs_cons hopen, hread]

theorem pItems_rjWItems (pretty : Bool) : ∀ (items : List JVal) (d indent k : Nat) (rest : List UInt8),
    items ≠ [] → ValidItems items → depthItems items ≤ d → items.length ≤ k →
      pItems (pVal d) k (rjWItems pretty indent items ++ 0x5d :: rest) = some (items, rest)
  | [], _, _, _, _, hne, _, _, _ => absurd rfl hne
  | [v], d, indent, k, rest, _, hv, hd, hk => by
      obtain ⟨k, rfl⟩ := Nat.exists_eq_succ_of_ne_zero (show k ≠ 0 by simp at hk; omega)
      simp only [ValidItems] at hv
      simp only [depthItems] at hd
      have hread := pVal_rjW pretty v d (indent + 1) (lineBreak pretty ++ (pad pretty indent ++ 0x5d :: rest))
        hv.1 (by omega) (stops_break pretty indent (by decide))
      have hclose : isWs 0x5d = false := by decide
      rw [← skipsWs_pVal d, ← pWs_break pretty (indent + 1), skipsWs_pVal d] at hread
      simp [rjWItems, pItems, List.append_assoc, hread, pWs_break, pWs_cons hclose]
  | v :: w :: items, d, indent, k, rest, _, hv, hd, hk => by
      obtain ⟨k, rfl⟩ := Nat.exists_eq_succ_of_ne_zero (show k ≠ 0 by simp at hk; omega)
      simp only [ValidItems] at hv
      simp only [depthItems] at hd
      have hmore := pItems_rjWItems pretty (w :: items) d indent k rest (by simp)
        (by simpa only [ValidItems] using hv.2) (by simp only [depthItems]; omega)
        (by simp only [List.length_cons] at hk ⊢; omega)
      have hread := pVal_rjW pretty v d (indent + 1)
        (0x2c :: (rjWItems pretty indent (w :: items) ++ 0x5d :: rest)) hv.1 (by omega)
        (stops_cons (by decide))
      have hcomma : isWs 0x2c = false := by decide
      rw [← skipsWs_pVal d, ← pWs_break pretty (indent + 1), skipsWs_pVal d] at hread
      rw [rjWItems]
      simp [pItems, List.append_assoc, hread, pWs_cons hcomma, hmore]
      simp

theorem pMembers_rjWMembers (pretty : Bool) : ∀ (members : List (List UInt8 × JVal)) (d indent k : Nat)
    (rest : List UInt8), members ≠ [] → ValidMembers members → depthMembers members ≤ d →
      members.length ≤ k →
      pMembers (pVal d) k (rjWMembers pretty indent members ++ 0x7d :: rest) = some (members, rest)
  | [], _, _, _, _, hne, _, _, _ => absurd rfl hne
  | [(key, v)], d, indent, k, rest, _, hv, hd, hk => by
      obtain ⟨k, rfl⟩ := Nat.exists_eq_succ_of_ne_zero (show k ≠ 0 by simp at hk; omega)
      simp only [ValidMembers] at hv
      simp only [depthMembers] at hd
      have hread := pVal_rjW pretty v d (indent + 1) (lineBreak pretty ++ (pad pretty indent ++ 0x7d :: rest))
        hv.2.1 (by omega) (stops_break pretty indent (by decide))
      have hmember := pMember_append (skipsWs_pVal d) hv.1 hread pretty (indent + 1)
      have hclose : isWs 0x7d = false := by decide
      simp [rjWMembers, pMembers, List.append_assoc, hmember, pWs_break, pWs_cons hclose]
  | (key, v) :: w :: members, d, indent, k, rest, _, hv, hd, hk => by
      obtain ⟨k, rfl⟩ := Nat.exists_eq_succ_of_ne_zero (show k ≠ 0 by simp at hk; omega)
      simp only [ValidMembers] at hv
      simp only [depthMembers] at hd
      have hmore := pMembers_rjWMembers pretty (w :: members) d indent k rest (by simp)
        (by simpa only [ValidMembers] using hv.2.2) (by simp only [depthMembers]; omega)
        (by simp only [List.length_cons] at hk ⊢; omega)
      have hread := pVal_rjW pretty v d (indent + 1)
        (0x2c :: (rjWMembers pretty indent (w :: members) ++ 0x7d :: rest)) hv.2.1 (by omega)
        (stops_cons (by decide))
      have hmember := pMember_append (skipsWs_pVal d) hv.1 hread pretty (indent + 1)
      have hcomma : isWs 0x2c = false := by decide
      rw [rjWMembers]
      simp [pMembers, List.append_assoc, hmember, pWs_cons hcomma, hmore]
      simp

end

/-! ## What is read can be written -/

/-- A reader whose values are valid and so deep at most, and that takes a byte at least. -/
def Sound (pv : JReader JVal) (d : Nat) : Prop :=
  ∀ bs v rest, pv bs = some (v, rest) → v.Valid ∧ v.depth ≤ d ∧ rest.length < bs.length

theorem length_pWs_le (bs : List UInt8) : (pWs bs).length ≤ bs.length :=
  List.length_dropWhile_le _ bs

theorem lt_length_of_pWs {ch : UInt8} {bs rest : List UInt8} (h : pWs bs = ch :: rest) :
    rest.length < bs.length := by
  have := length_pWs_le bs
  rw [h, List.length_cons] at this
  omega

theorem map_pushed_eq_some {o : Option (List UInt8 × List UInt8)} {bytes s rest : List UInt8}
    (h : o.map (pushed bytes) = some (s, rest)) : ∃ s', o = some (s', rest) := by
  obtain ⟨⟨s', r⟩, ho, heq⟩ := Option.map_eq_some_iff.mp h
  obtain ⟨-, rfl⟩ := by simpa [pushed] using heq
  exact ⟨s', ho⟩

theorem pStringCore_length {bs s rest : List UInt8} (h : pStringCore bs = some (s, rest)) :
    rest.length ≤ bs.length := by
  fun_induction pStringCore bs generalizing s rest with
  | case2 tail =>
      obtain ⟨-, rfl⟩ := by simpa using h
      exact Nat.le_succ _
  | case4 e tail b hb _ ih =>
      obtain ⟨s', hs'⟩ := map_pushed_eq_some h
      have := ih hs'
      simp only [List.length_cons]
      omega
  | case5 h1 h2 h3 h4 tail cp hcp _ _ ih =>
      obtain ⟨s', hs'⟩ := map_pushed_eq_some h
      have := ih hs'
      simp only [List.length_cons]
      omega
  | case10 ch tail _ _ _ ih =>
      obtain ⟨s', hs'⟩ := map_pushed_eq_some h
      have := ih hs'
      simp only [List.length_cons]
      omega
  | _ => cases h

variable {pv : JReader JVal} {d : Nat}

theorem Sound.pItems (hpv : Sound pv d) {k : Nat} {bs rest : List UInt8} {items : List JVal}
    (h : pItems pv k bs = some (items, rest)) :
    ValidItems items ∧ depthItems items ≤ d ∧ rest.length < bs.length := by
  induction k generalizing bs items rest with
  | zero => cases h
  | succ k ih =>
      simp only [Rpc.pItems] at h
      split at h
      · cases h
      next v r hv =>
      obtain ⟨hvalid, hdepth, hlen⟩ := hpv _ _ _ hv
      split at h
      · cases h
      next ch after hafter =>
      have hlen' := lt_length_of_pWs hafter
      split at h
      · obtain ⟨⟨items', rest'⟩, hmore, heq⟩ := Option.map_eq_some_iff.mp h
        obtain ⟨rfl, rfl⟩ := by simpa using heq
        obtain ⟨hvalid', hdepth', hrest'⟩ := ih hmore
        exact ⟨⟨hvalid, hvalid'⟩, max_le hdepth hdepth', by omega⟩
      · split at h
        · obtain ⟨rfl, rfl⟩ := by simpa using h
          exact ⟨⟨hvalid, trivial⟩, max_le hdepth (Nat.zero_le d), by omega⟩
        · cases h

theorem Sound.pMember (hpv : Sound pv d) {bs rest : List UInt8} {m : List UInt8 × JVal}
    (h : pMember pv bs = some (m, rest)) :
    0 ∉ m.1 ∧ m.2.Valid ∧ m.2.depth ≤ d ∧ rest.length < bs.length := by
  simp only [Rpc.pMember] at h
  split at h
  · cases h
  next ch r hr =>
  have hlen := lt_length_of_pWs hr
  split at h
  · cases h
  split at h
  · cases h
  next key r' hkey =>
  have hlen' := pStringCore_length hkey
  split at h
  · cases h
  next ch' r'' hr' =>
  have hlen'' := lt_length_of_pWs hr'
  split at h
  · cases h
  obtain ⟨⟨v, rest'⟩, hv, heq⟩ := Option.map_eq_some_iff.mp h
  obtain ⟨rfl, rfl⟩ := by simpa using heq
  obtain ⟨hvalid, hdepth, hrest⟩ := hpv _ _ _ hv
  exact ⟨zero_not_mem_cstr key, hvalid, hdepth, by omega⟩

theorem Sound.pMembers (hpv : Sound pv d) {k : Nat} {bs rest : List UInt8}
    {members : List (List UInt8 × JVal)} (h : pMembers pv k bs = some (members, rest)) :
    ValidMembers members ∧ depthMembers members ≤ d ∧ rest.length < bs.length := by
  induction k generalizing bs members rest with
  | zero => cases h
  | succ k ih =>
      simp only [Rpc.pMembers] at h
      split at h
      · cases h
      next m r hm =>
      obtain ⟨key, v⟩ := m
      obtain ⟨hkey, hvalid, hdepth, hlen⟩ := hpv.pMember hm
      split at h
      · cases h
      next ch after hafter =>
      have hlen' := lt_length_of_pWs hafter
      split at h
      · obtain ⟨⟨members', rest'⟩, hmore, heq⟩ := Option.map_eq_some_iff.mp h
        obtain ⟨rfl, rfl⟩ := by simpa using heq
        obtain ⟨hvalid', hdepth', hrest'⟩ := ih hmore
        exact ⟨⟨hkey, hvalid, hvalid'⟩, max_le hdepth hdepth', by omega⟩
      · split at h
        · obtain ⟨rfl, rfl⟩ := by simpa using h
          exact ⟨⟨hkey, hvalid, trivial⟩, max_le hdepth (Nat.zero_le d), by omega⟩
        · cases h

theorem Sound.pArr (hpv : Sound pv d) : Sound (pArr pv) (d + 1) := by
  intro bs v rest h
  simp only [Rpc.pArr] at h
  split at h
  · next ch r hr =>
      have hlen := lt_length_of_pWs hr
      split at h
      · obtain ⟨rfl, rfl⟩ := by simpa using h
        exact ⟨trivial, by simp [JVal.depth, depthItems], hlen⟩
      · obtain ⟨⟨items, rest'⟩, hitems, heq⟩ := Option.map_eq_some_iff.mp h
        obtain ⟨rfl, rfl⟩ := by simpa using heq
        obtain ⟨hvalid, hdepth, hrest⟩ := hpv.pItems hitems
        simp only [List.length_cons] at hrest
        exact ⟨hvalid, Nat.succ_le_succ hdepth, by omega⟩
  · cases h

theorem Sound.pObj (hpv : Sound pv d) : Sound (pObj pv) (d + 1) := by
  intro bs v rest h
  simp only [Rpc.pObj] at h
  split at h
  · next ch r hr =>
      have hlen := lt_length_of_pWs hr
      split at h
      · obtain ⟨rfl, rfl⟩ := by simpa using h
        exact ⟨trivial, by simp [JVal.depth, depthMembers], hlen⟩
      · obtain ⟨⟨members, rest'⟩, hmembers, heq⟩ := Option.map_eq_some_iff.mp h
        obtain ⟨rfl, rfl⟩ := by simpa using heq
        obtain ⟨hvalid, hdepth, hrest⟩ := hpv.pMembers hmembers
        simp only [List.length_cons] at hrest
        exact ⟨hvalid, Nat.succ_le_succ hdepth, by omega⟩
  · cases h

theorem length_drop_lt {bs word : List UInt8} {n : Nat} (h : bs.take n = word) (hword : word.length = n)
    (hn : 0 < n) : (bs.drop n).length < bs.length := by
  have := congrArg List.length h
  simp only [List.length_take, hword] at this
  simp only [List.length_drop]
  omega

theorem sound_pScalar (d : Nat) : Sound pScalar d := by
  intro bs v rest h
  simp only [pScalar] at h
  split at h
  · next htrue =>
      obtain ⟨rfl, rfl⟩ := by simpa using h
      exact ⟨trivial, Nat.zero_le d, length_drop_lt htrue rfl (by decide)⟩
  split at h
  · next hfalse =>
      obtain ⟨rfl, rfl⟩ := by simpa using h
      exact ⟨trivial, Nat.zero_le d, length_drop_lt hfalse rfl (by decide)⟩
  split at h
  · next hnull =>
      obtain ⟨rfl, rfl⟩ := by simpa using h
      exact ⟨trivial, Nat.zero_le d, length_drop_lt hnull rfl (by decide)⟩
  split at h
  · obtain ⟨⟨t, r⟩, hnum, heq⟩ := Option.map_eq_some_iff.mp h
    obtain ⟨rfl, rfl⟩ := by simpa using heq
    obtain ⟨ht, rfl⟩ := pNumber_eq_some hnum
    obtain ⟨ch, more, rfl, -⟩ := ht.head
    exact ⟨ht, Nat.zero_le d, by simp only [List.cons_append, List.length_cons, List.length_append]; omega⟩
  · cases h

theorem sound_pValWith {inner : Option (JReader JVal)}
    (hobj : ∀ pv ∈ inner, Sound (pObj pv) d) (harr : ∀ pv ∈ inner, Sound (pArr pv) d) :
    Sound (pValWith inner) d := by
  intro bs v rest h
  simp only [pValWith] at h
  split at h
  · cases h
  next ch r hr =>
  have hlen := lt_length_of_pWs hr
  split at h
  · obtain ⟨⟨s, r'⟩, hs, heq⟩ := Option.map_eq_some_iff.mp h
    obtain ⟨rfl, rfl⟩ := by simpa using heq
    exact ⟨zero_not_mem_cstr s, Nat.zero_le d, (pStringCore_length hs).trans_lt hlen⟩
  split at h
  · obtain ⟨pv, hpv, hv⟩ := Option.bind_eq_some_iff.mp h
    obtain ⟨hvalid, hdepth, hrest⟩ := hobj pv hpv _ _ _ hv
    exact ⟨hvalid, hdepth, hrest.trans hlen⟩
  split at h
  · obtain ⟨pv, hpv, hv⟩ := Option.bind_eq_some_iff.mp h
    obtain ⟨hvalid, hdepth, hrest⟩ := harr pv hpv _ _ _ hv
    exact ⟨hvalid, hdepth, hrest.trans hlen⟩
  · obtain ⟨hvalid, hdepth, hrest⟩ := sound_pScalar d _ _ _ h
    exact ⟨hvalid, hdepth, hrest.trans_le (hr ▸ length_pWs_le bs)⟩

theorem sound_pVal (d : Nat) : Sound (pVal d) d := by
  induction d with
  | zero => exact sound_pValWith (by simp) (by simp)
  | succ d ih => exact sound_pValWith (by simpa using ih.pObj) (by simpa using ih.pArr)

/-! The loops of the source have no bound of their own: one round more than the text has bytes
changes nothing. -/

theorem Sound.pItems_bound (hpv : Sound pv d) {k : Nat} {bs : List UInt8} (hk : bs.length ≤ k) :
    Rpc.pItems pv (k + 1) bs = Rpc.pItems pv k bs := by
  induction k generalizing bs with
  | zero =>
      obtain rfl : bs = [] := List.length_eq_zero_iff.mp (Nat.le_zero.mp hk)
      cases hv : pv [] with
      | none => simp [Rpc.pItems, hv]
      | some p => exact absurd (hpv _ p.1 p.2 hv).2.2 (Nat.not_lt_zero _)
  | succ k ih =>
      rw [Rpc.pItems, Rpc.pItems]
      split
      · rfl
      next v r hv =>
      have hlen := (hpv _ _ _ hv).2.2
      split
      · rfl
      next ch after hafter =>
      have hlen' := lt_length_of_pWs hafter
      rw [ih (by omega)]

theorem Sound.pMembers_bound (hpv : Sound pv d) {k : Nat} {bs : List UInt8} (hk : bs.length ≤ k) :
    Rpc.pMembers pv (k + 1) bs = Rpc.pMembers pv k bs := by
  induction k generalizing bs with
  | zero =>
      obtain rfl : bs = [] := List.length_eq_zero_iff.mp (Nat.le_zero.mp hk)
      rfl
  | succ k ih =>
      rw [Rpc.pMembers, Rpc.pMembers]
      split
      · rfl
      next m r hm =>
      have hlen := (hpv.pMember hm).2.2.2
      split
      · rfl
      next ch after hafter =>
      have hlen' := lt_length_of_pWs hafter
      rw [ih (by omega)]

/-! ## Round trips -/

theorem rjParse_rjW (pretty : Bool) {v : JVal} (hvalid : v.Valid) (hdepth : v.depth ≤ rjMaxDepth) :
    rjParse (rjW pretty 0 v) = some v := by
  have hread := pVal_rjW pretty v rjMaxDepth 0 [] hvalid hdepth (by simp [Stops])
  rw [List.append_nil] at hread
  simp [rjParse, hread, pWs]

theorem rjParse_sound {text : List UInt8} {v : JVal} (h : rjParse text = some v) :
    v.Valid ∧ v.depth ≤ rjMaxDepth := by
  simp only [rjParse] at h
  split at h
  · cases h
  next w rest hw =>
  have := sound_pVal rjMaxDepth _ _ _ hw
  split at h
  · obtain rfl : w = v := by simpa using h
    exact ⟨this.1, this.2.1⟩
  · cases h

/-- A tree that the constructors make is read back from the compact and from the indented text, and
what any text is read as stands in its compact text. -/
theorem json_round_trip :
    (∀ (pretty : Bool) (v : JVal), v.Valid → v.depth ≤ rjMaxDepth →
      rjParse (rjW pretty 0 v) = some v) ∧
    ∀ (text : List UInt8) (v : JVal), rjParse text = some v → rjParse (rjW false 0 v) = some v := by
  constructor
  · intro pretty v hvalid hdepth
    exact rjParse_rjW pretty hvalid hdepth
  · intro text v h
    obtain ⟨hvalid, hdepth⟩ := rjParse_sound h
    exact rjParse_rjW false hvalid hdepth

/-- An object with an escaped key, an array, a number with every part and an empty object. -/
def sampleTree : JVal :=
  .obj [([0x61, 0x0a], .arr [.num [0x2d, 0x31, 0x2e, 0x35, 0x65, 0x2b, 0x33], .null, .str [0x7f, 0x22]]),
    ([], .obj [])]

theorem sampleTree_valid : sampleTree.Valid := by
  have hdigits : ∀ d : UInt8, isDigit d = true → IsDigits [d] := by
    intro d hd
    exact ⟨List.cons_ne_nil _ _, by simpa using hd⟩
  have hnum : JsonNumber [0x2d, 0x31, 0x2e, 0x35, 0x65, 0x2b, 0x33] :=
    ⟨[0x2d], [0x31], [0x2e, 0x35], [0x65, 0x2b, 0x33], .inr rfl, ⟨hdigits 0x31 rfl, by simp⟩,
      .inr ⟨[0x35], hdigits 0x35 rfl, rfl⟩,
      .inr ⟨0x65, [0x2b], [0x33], .inl rfl, .inr (.inl rfl), hdigits 0x33 rfl, rfl⟩, rfl⟩
  simp [sampleTree, JVal.Valid, ValidMembers, ValidItems, hnum]

theorem json_round_trip_sample :
    rjParse (rjW true 0 sampleTree) = some sampleTree ∧
      rjParse (rjW false 0 sampleTree) = some sampleTree := by
  have hdepth : sampleTree.depth ≤ rjMaxDepth := by decide
  have hpretty := json_round_trip.1 true sampleTree sampleTree_valid hdepth
  exact ⟨hpretty, json_round_trip.2 _ _ hpretty⟩

end BitcoinMachineCode.Rpc
