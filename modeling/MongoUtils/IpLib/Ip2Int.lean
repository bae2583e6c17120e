import MongoUtils.IpLib.SplitString

/-!
# `ip_lib/ip_table.h`: `ip2int`

`ip2int` splits its argument at the dots, converts the four parts with `atoi`, and adds
them up in wrapping 64-bit arithmetic; anything but four parts gives `-1`, that is
`2 ^ 64 - 1`. `atoi` is glibc's: `(int) strtol(s, NULL, 10)`.

* `strtol`, `atoi`, `ip2int`: the functions;
* `weigh`: the sum that `ip2int` forms, over the integers. `ip2int` returns it modulo
  `2 ^ 64` (`ip2int_parts`), and it is too small for the wrapping to produce a 32-bit value
  out of anything else than itself (`ip2int_lt_iff`);
* `Quad`: four decimal octets joined by dots, with any number of leading zeros; `ip2int`
  returns its address (`ip2int_quad`), also when a suffix follows that `atoi` ignores.
-/

namespace MongoUtils
namespace IpLib

/-! ### `atoi` -/

/-- `isspace` in the C locale. -/
def isSpace (c : UInt8) : Bool := c = 32 || (9 ≤ c && c ≤ 13)

/-- `isdigit`. -/
def isDigit (c : UInt8) : Bool := 48 ≤ c && c ≤ 57

/-- The number that a string of decimal digits denotes. -/
def digitsValue (s : Str) : ℕ := s.foldl (fun n c => 10 * n + (c.toNat - 48)) 0

/-- The value of the digits at the beginning of `s`. -/
def leadingDigits (s : Str) : ℕ := digitsValue (s.takeWhile isDigit)

/-- `strtol(s, NULL, 10)` with a 64-bit `long`: leading blanks, an optional sign, digits up to
the first other byte; the result saturates. -/
def strtol (s : Str) : ℤ :=
  match (cut s).dropWhile isSpace with
  | [] => 0
  | c :: rest =>
      if c = 45 then max (-2 ^ 63) (-(leadingDigits rest : ℤ))
      else if c = 43 then min (2 ^ 63 - 1) (leadingDigits rest : ℤ)
      else min (2 ^ 63 - 1) (leadingDigits (c :: rest) : ℤ)

/-- `atoi(s)`: the `long` cast to `int`. -/
def atoi (s : Str) : Int32 := Int32.ofInt (strtol s)

example : atoi (ascii " +12x") = 12 := by decide +kernel
example : atoi (ascii "-7") = -7 := by decide +kernel

/-! ### `ip2int` -/

/-- The initialization of a `uint64_t` from the `int` that `atoi` returns. -/
def atoiU64 (s : Str) : UInt64 := (atoi s).toInt64.toUInt64

/-- `ip2int(ip)`. -/
def ip2int (ip : Str) : Except Fault UInt64 := do
  let result ← splitString ip [] 46
  match result with
  | [r0, r1, r2, r3] =>
      let a := atoiU64 r0
      let b := atoiU64 r1
      let c := atoiU64 r2
      let d := atoiU64 r3
      return a * 16777216 + b * 65536 + c * 256 + d
  | _ => return -1

example : ip2int (ascii "1.2.3.4") = .ok 0x01020304 := by decide +kernel
example : ip2int (ascii "1.2.3") = .ok 0xFFFFFFFFFFFFFFFF := by decide +kernel
example : ip2int (ascii "1.2.3.") = .error .readPastNul := by decide +kernel

/-- The sum that `ip2int` forms, over the integers. -/
def weigh (a b c d : ℤ) : ℤ := a * 16777216 + b * 65536 + c * 256 + d

theorem toNat_atoiU64 (s : Str) : ((atoiU64 s).toNat : ℤ) = (atoi s).toInt % 2 ^ 64 := by
  have h : (atoi s).toInt64.toInt = (((atoiU64 s).toNat : ℕ) : ℤ).bmod (2 ^ 64) :=
    BitVec.toInt_eq_toNat_bmod (atoi s).toInt64.toBitVec
  have hlt := (atoiU64 s).toNat_lt
  have hmod : ((atoiU64 s).toNat : ℤ).bmod (2 ^ 64) % ((2 ^ 64 : ℕ) : ℤ) =
      ((atoiU64 s).toNat : ℤ) % ((2 ^ 64 : ℕ) : ℤ) := Int.bmod_emod
  rw [Int32.toInt_toInt64] at h
  rw [← h] at hmod
  push_cast at hmod
  omega

/-- `atoi` returns an `int`, so the sum stays far away from `2 ^ 63`. -/
theorem weigh_atoi_bounds (r0 r1 r2 r3 : Str) :
    -2 ^ 56 < weigh (atoi r0).toInt (atoi r1).toInt (atoi r2).toInt (atoi r3).toInt ∧
      weigh (atoi r0).toInt (atoi r1).toInt (atoi r2).toInt (atoi r3).toInt < 2 ^ 56 := by
  have lo := fun r : Str => (atoi r).le_toInt
  have hi := fun r : Str => (atoi r).toInt_lt
  have h0 := lo r0; have h1 := lo r1; have h2 := lo r2; have h3 := lo r3
  have h0' := hi r0; have h1' := hi r1; have h2' := hi r2; have h3' := hi r3
  unfold weigh
  constructor <;> omega

/-- Four parts: `ip2int` returns their weighted sum modulo `2 ^ 64`. -/
theorem ip2int_parts {ip r0 r1 r2 r3 : Str}
    (h : splitString ip [] 46 = .ok [r0, r1, r2, r3]) :
    ∃ v, ip2int ip = .ok v ∧
      (v.toNat : ℤ) =
        weigh (atoi r0).toInt (atoi r1).toInt (atoi r2).toInt (atoi r3).toInt % 2 ^ 64 := by
  refine ⟨_, by rw [ip2int, h]; rfl, ?_⟩
  have h0 := toNat_atoiU64 r0
  have h1 := toNat_atoiU64 r1
  have h2 := toNat_atoiU64 r2
  have h3 := toNat_atoiU64 r3
  simp only [UInt64.toNat_add, UInt64.toNat_mul, UInt64.reduceToNat]
  unfold weigh
  omega

/-- Any other number of parts: `ip2int` returns its rejection value. -/
theorem ip2int_not_four {ip : Str} {r : List Str} (h : splitString ip [] 46 = .ok r)
    (hr : r.length ≠ 4) : ip2int ip = .ok (-1) := by
  rw [ip2int, h]
  match r, hr with
  | [], _ => rfl
  | [_], _ => rfl
  | [_, _], _ => rfl
  | [_, _, _], _ => rfl
  | [_, _, _, _], hr => exact absurd rfl hr
  | _ :: _ :: _ :: _ :: _ :: _, _ => rfl

/-- `ip2int` faults exactly when the split at the dots does. -/
theorem ip2int_ok_iff (ip : Str) :
    (∃ v, ip2int ip = .ok v) ↔ ∃ r, splitString ip [] 46 = .ok r := by
  cases h : splitString ip [] 46 with
  | error e => simp [ip2int, h, bind, Except.bind]
  | ok r =>
    refine iff_of_true ?_ ⟨r, rfl⟩
    by_cases hr : r.length = 4
    · obtain ⟨r0, r1, r2, r3, rfl⟩ := List.length_eq_four.1 hr
      obtain ⟨v, hv, -⟩ := ip2int_parts h
      exact ⟨v, hv⟩
    · exact ⟨-1, ip2int_not_four h hr⟩

/-- The only fault of `ip2int` is the read behind the NUL. -/
theorem ip2int_error {ip : Str} {e : Fault} (h : ip2int ip = .error e) : e = .readPastNul := by
  rcases splitString_cases ip [] 46 with hs | hs
  · simp only [ip2int, hs, bind, Except.bind, Except.error.injEq] at h
    exact h.symm
  · obtain ⟨v, hv⟩ := (ip2int_ok_iff ip).2 hs
    rw [h] at hv
    cases hv

/-- `ip2int` reads behind the NUL exactly if an odd number of dots is at the end. -/
theorem ip2int_error_iff {ip : Str} (h0 : 0 ∉ ip) :
    ip2int ip = .error .readPastNul ↔ Odd (trailingRun 46 ip) := by
  rw [← splitString_error_iff (by decide) h0 []]
  constructor
  · intro h
    rcases splitString_cases ip [] 46 with hs | hs
    · exact hs
    · obtain ⟨v, hv⟩ := (ip2int_ok_iff ip).2 hs
      rw [h] at hv
      cases hv
  · intro h
    rw [ip2int, h]
    rfl

/-- **What `ip2int` maps to 32-bit values**: the strings with four parts whose weighted sum is
a 32-bit value itself; wrapping around does not produce any others. -/
theorem ip2int_lt_iff {ip : Str} {v : UInt64} (h : ip2int ip = .ok v) :
    v.toNat < 2 ^ 32 ↔
      ∃ r0 r1 r2 r3, splitString ip [] 46 = .ok [r0, r1, r2, r3] ∧
        0 ≤ weigh (atoi r0).toInt (atoi r1).toInt (atoi r2).toInt (atoi r3).toInt ∧
        weigh (atoi r0).toInt (atoi r1).toInt (atoi r2).toInt (atoi r3).toInt < 2 ^ 32 := by
  obtain ⟨r, hr⟩ := (ip2int_ok_iff ip).1 ⟨v, h⟩
  by_cases hlen : r.length = 4
  · obtain ⟨r0, r1, r2, r3, rfl⟩ := List.length_eq_four.1 hlen
    obtain ⟨v', hv', hsum⟩ := ip2int_parts hr
    obtain rfl : v = v' := Except.ok.inj (h.symm.trans hv')
    obtain ⟨hlo, hhi⟩ := weigh_atoi_bounds r0 r1 r2 r3
    constructor
    · intro hv
      exact ⟨r0, r1, r2, r3, hr, by omega, by omega⟩
    · rintro ⟨s0, s1, s2, s3, hs, h1, h2⟩
      obtain ⟨rfl, rfl, rfl, rfl⟩ : r0 = s0 ∧ r1 = s1 ∧ r2 = s2 ∧ r3 = s3 := by
        simpa using hr.symm.trans hs
      omega
  · obtain rfl : v = -1 := Except.ok.inj (h.symm.trans (ip2int_not_four hr hlen))
    refine iff_of_false (by decide) ?_
    rintro ⟨r0, r1, r2, r3, hs, -⟩
    obtain rfl : r = [r0, r1, r2, r3] := Except.ok.inj (hr.symm.trans hs)
    exact hlen rfl

/-! ### Digits -/

section Digits

variable {c : UInt8}

theorem toNat_of_isDigit (h : isDigit c) : 48 ≤ c.toNat ∧ c.toNat ≤ 57 := by
  simp only [isDigit, Bool.and_eq_true, decide_eq_true_eq, UInt8.le_iff_toNat_le] at h
  exact h

theorem ne_of_isDigit (h : isDigit c) {b : UInt8} (hb : isDigit b = false) : c ≠ b := by
  rintro rfl
  rw [h] at hb
  cases hb

theorem not_isSpace_of_isDigit (h : isDigit c) : isSpace c = false := by
  have := toNat_of_isDigit h
  have h32 := ne_of_isDigit h (b := 32) (by decide)
  simp only [isSpace, h32, decide_false, Bool.false_or, Bool.and_eq_false_iff,
    decide_eq_false_iff_not, UInt8.le_iff_toNat_le]
  right
  exact fun h => absurd h (by simp; omega)

/-- A byte that is no digit does not occur in a string of digits. -/
theorem notMem_digits {b : UInt8} (hb : isDigit b = false) {ds : Str}
    (hds : ∀ c ∈ ds, isDigit c) : b ∉ ds :=
  fun h => ne_of_isDigit (hds b h) hb rfl

/-- `strtol` reads a numeral up to the first byte behind it that is no digit. -/
theorem strtol_digits {ds suffix : Str} (hne : ds ≠ []) (hds : ∀ c ∈ ds, isDigit c)
    (h0 : 0 ∉ suffix) (hsuffix : ∀ c ∈ suffix.head?, isDigit c = false) :
    strtol (ds ++ suffix) = min (2 ^ 63 - 1) (digitsValue ds : ℤ) := by
  have hcut : cut (ds ++ suffix) = ds ++ suffix :=
    cut_of_notMem (by simp [notMem_digits (b := 0) (by decide) hds, h0])
  have htake : (ds ++ suffix).takeWhile isDigit = ds := by
    rw [List.takeWhile_append_of_pos hds]
    cases suffix with
    | nil => simp
    | cons b suffix => simp [hsuffix b (by simp)]
  obtain ⟨c, ds', rfl⟩ := List.exists_cons_of_ne_nil hne
  have hc : isDigit c := hds c (by simp)
  rw [strtol, hcut, List.cons_append, List.dropWhile_cons_of_neg (by simp [not_isSpace_of_isDigit hc])]
  simp only [if_neg (ne_of_isDigit hc (b := 45) (by decide)),
    if_neg (ne_of_isDigit hc (b := 43) (by decide))]
  rw [← List.cons_append, leadingDigits, htake]

end Digits

/-! ### Dotted quads -/

/-- A decimal octet: a non-empty string of digits with a value of at most 255. Leading zeros
are allowed, in any number. -/
structure Octet where
  digits : Str
  ne_nil : digits ≠ []
  isDigit : ∀ c ∈ digits, isDigit c
  le : digitsValue digits ≤ 255

/-- The number that an octet denotes. -/
def Octet.value (o : Octet) : ℕ := digitsValue o.digits

/-- The decimal digits of an octet, without leading zeros. -/
def octetDigits (n : Fin 256) : Str :=
  let digit := fun k : ℕ => UInt8.ofNat (48 + k)
  if n.val < 10 then [digit n]
  else if n.val < 100 then [digit (n / 10), digit (n % 10)]
  else [digit (n / 100), digit (n / 10 % 10), digit (n % 10)]

theorem octetDigits_spec : ∀ n : Fin 256, octetDigits n ≠ [] ∧
    (octetDigits n).all isDigit ∧ digitsValue (octetDigits n) = n := by
  decide +kernel

/-- An octet in its usual form. -/
def Octet.ofFin (n : Fin 256) : Octet where
  digits := octetDigits n
  ne_nil := (octetDigits_spec n).1
  isDigit := List.all_eq_true.1 (octetDigits_spec n).2.1
  le := by rw [(octetDigits_spec n).2.2]; omega

/-- Four octets. -/
structure Quad where
  a : Octet
  b : Octet
  c : Octet
  d : Octet

/-- A dotted quad in its usual form. -/
def Quad.ofFin (a b c d : Fin 256) : Quad := ⟨.ofFin a, .ofFin b, .ofFin c, .ofFin d⟩

/-- The octets joined by dots. -/
def Quad.text (q : Quad) : Str :=
  [46].intercalate [q.a.digits, q.b.digits, q.c.digits, q.d.digits]

/-- The 32-bit address that a dotted quad denotes. -/
def Quad.address (q : Quad) : ℕ :=
  q.a.value * 16777216 + q.b.value * 65536 + q.c.value * 256 + q.d.value

theorem Quad.address_lt (q : Quad) : q.address < 2 ^ 32 := by
  have ha := q.a.le; have hb := q.b.le; have hc := q.c.le; have hd := q.d.le
  unfold Quad.address Octet.value
  omega

/-- A byte other than a digit or the dot does not occur in a dotted quad. -/
theorem Quad.notMem_text (q : Quad) {b : UInt8} (hb : IpLib.isDigit b = false) (hdot : b ≠ 46) :
    b ∉ q.text :=
  notMem_intercalate hdot (by
    simp [notMem_digits hb q.a.isDigit, notMem_digits hb q.b.isDigit,
      notMem_digits hb q.c.isDigit, notMem_digits hb q.d.isDigit])

theorem Octet.atoi_append (o : Octet) (suffix : Str) (h0 : 0 ∉ suffix)
    (hsuffix : ∀ c ∈ suffix.head?, IpLib.isDigit c = false) :
    (atoi (o.digits ++ suffix)).toInt = o.value := by
  have hle := o.le
  rw [atoi, strtol_digits o.ne_nil o.isDigit h0 hsuffix, Int32.toInt_ofInt_of_le]
  · unfold Octet.value; omega
  · omega
  · omega

theorem Octet.atoi_digits (o : Octet) : (atoi o.digits).toInt = o.value := by
  have := o.atoi_append [] (by simp) (by simp)
  rwa [List.append_nil] at this

/-- The parts of a dotted quad, the last one with what follows. -/
theorem Quad.splitString_append (q : Quad) (suffix : Str) (hdot : 46 ∉ suffix) (h0 : 0 ∉ suffix) :
    splitString (q.text ++ suffix) [] 46 =
      .ok [q.a.digits, q.b.digits, q.c.digits, q.d.digits ++ suffix] := by
  have htext : q.text ++ suffix =
      [46].intercalate [q.a.digits, q.b.digits, q.c.digits, q.d.digits ++ suffix] := by
    simp [Quad.text]
  have hdigits : ∀ o : Octet, 46 ∉ o.digits ∧ 0 ∉ o.digits := fun o =>
    ⟨notMem_digits (by decide) o.isDigit, notMem_digits (by decide) o.isDigit⟩
  rw [htext]
  apply splitString_intercalate (by decide)
  · simp [q.a.ne_nil, q.b.ne_nil, q.c.ne_nil, q.d.ne_nil]
  · simp [hdigits, hdot]
  · simp [hdigits, h0]

theorem Quad.splitString_text (q : Quad) :
    splitString q.text [] 46 = .ok [q.a.digits, q.b.digits, q.c.digits, q.d.digits] := by
  have := q.splitString_append [] (by simp) (by simp)
  rwa [List.append_nil, List.append_nil] at this

/-- **`ip2int` on a dotted quad**, possibly followed by bytes that `atoi` stops at. -/
theorem ip2int_quad_append (q : Quad) (suffix : Str) (hdot : 46 ∉ suffix) (h0 : 0 ∉ suffix)
    (hsuffix : ∀ c ∈ suffix.head?, isDigit c = false) :
    ∃ v, ip2int (q.text ++ suffix) = .ok v ∧ v.toNat = q.address := by
  obtain ⟨v, hv, hsum⟩ := ip2int_parts (q.splitString_append suffix hdot h0)
  refine ⟨v, hv, ?_⟩
  have hlt := q.address_lt
  rw [q.a.atoi_digits, q.b.atoi_digits, q.c.atoi_digits, q.d.atoi_append suffix h0 hsuffix] at hsum
  unfold weigh at hsum
  unfold Quad.address at hlt ⊢
  omega

theorem ip2int_quad (q : Quad) : ∃ v, ip2int q.text = .ok v ∧ v.toNat = q.address := by
  have := ip2int_quad_append q [] (by simp) (by simp) (by simp)
  rwa [List.append_nil] at this

end IpLib
end MongoUtils
