import MongoUtils.IpLib.IpTable
import MongoUtils.Library.Positional

/-!
# Texts and addresses

Which texts `ip2int` maps to which addresses.

* `Quad.octets`, `Quad.ofAddress`: the digits of a dotted quad in base 256, and the dotted quad of
  an address;
* `ip2int_orderIso`: on dotted quads `ip2int` keeps the lexicographic order of the octets, and it
  takes every address as the value of its dotted quad;
* `partsAddress`: the address that four parts sum to. `ip2int_accepts_iff` says that `ip2int` maps
  a text to an address exactly if its parts sum to it, well formed or not;
* `not_acceptsOnlyQuads`: so it accepts more than the dotted quads.
-/

namespace MongoUtils
namespace IpLib

/-! ### Dotted quads in order -/

/-- The four octets. -/
def Quad.octets (q : Quad) : List ℕ := [q.a.value, q.b.value, q.c.value, q.d.value]

theorem Quad.digits_octets (q : Quad) : Positional.Digits 256 q.octets := by
  have ha := q.a.le; have hb := q.b.le; have hc := q.c.le; have hd := q.d.le
  simp only [Positional.Digits, Quad.octets, Octet.value, List.mem_cons, List.not_mem_nil, or_false,
    forall_eq_or_imp, forall_eq]
  omega

/-- **The address is the number that the octets denote in base 256.** -/
theorem Quad.address_eq_value (q : Quad) : q.address = Positional.value 256 q.octets := by
  simp only [Quad.octets, Positional.value_cons, Positional.value_nil, Quad.address,
    List.length_cons, List.length_nil]
  omega

theorem Quad.address_lt_iff (q r : Quad) : q.address < r.address ↔ q.octets < r.octets := by
  rw [q.address_eq_value, r.address_eq_value]
  exact Positional.value_lt_value_iff q.digits_octets r.digits_octets rfl

theorem Quad.address_inj (q r : Quad) : q.address = r.address ↔ q.octets = r.octets := by
  rw [q.address_eq_value, r.address_eq_value]
  exact Positional.value_inj q.digits_octets r.digits_octets rfl

/-- The dotted quad of an address, without leading zeros. -/
def Quad.ofAddress (n : UInt32) : Quad :=
  let octet := fun k : ℕ => (⟨n.toNat / k % 256, Nat.mod_lt _ (by decide)⟩ : Fin 256)
  .ofFin (octet 16777216) (octet 65536) (octet 256) (octet 1)

theorem Octet.value_ofFin (k : Fin 256) : (Octet.ofFin k).value = k := (octetDigits_spec k).2.2

theorem Quad.address_ofAddress (n : UInt32) : (Quad.ofAddress n).address = n.toNat := by
  have hlt := n.toNat_lt
  simp only [Quad.ofAddress, Quad.ofFin, Quad.address, Octet.value_ofFin]
  omega

/-- **`ip2int` is an order isomorphism** from the dotted quads, whatever their leading zeros, to
the 32-bit addresses: its values are such addresses, which the loaders store unchanged, they are
ordered as the octets are lexicographically, and every address is the value of its dotted quad. -/
theorem ip2int_orderIso :
    (∀ q r : Quad, ∃ v w, ip2int q.text = .ok v ∧ ip2int r.text = .ok w ∧
      v.toNat < 2 ^ 32 ∧ w.toNat < 2 ^ 32 ∧ narrow v = v ∧ narrow w = w ∧
      (v < w ↔ q.octets < r.octets) ∧ (v = w ↔ q.octets = r.octets)) ∧
    ∀ n : UInt32, ip2int (Quad.ofAddress n).text = .ok n.toUInt64 := by
  constructor
  · intro q r
    obtain ⟨v, hv, hvq⟩ := ip2int_quad q
    obtain ⟨w, hw, hwr⟩ := ip2int_quad r
    have hvlt : v.toNat < 2 ^ 32 := hvq ▸ q.address_lt
    have hwlt : w.toNat < 2 ^ 32 := hwr ▸ r.address_lt
    refine ⟨v, w, hv, hw, hvlt, hwlt, narrow_of_lt hvlt, narrow_of_lt hwlt, ?_, ?_⟩
    · rw [UInt64.lt_iff_toNat_lt, hvq, hwr]
      exact q.address_lt_iff r
    · rw [← UInt64.toNat_inj, hvq, hwr]
      exact q.address_inj r
  · intro n
    obtain ⟨v, hv, hvn⟩ := ip2int_quad (Quad.ofAddress n)
    rw [Quad.address_ofAddress] at hvn
    rw [hv, Except.ok.injEq, ← UInt64.toNat_inj, hvn, UInt32.toNat_toUInt64]

/-! ### What is accepted -/

/-- The address that the parts of a text sum to, if there are four of them and the sum is one. -/
def partsAddress : List Str → Option ℕ
  | [r0, r1, r2, r3] =>
      let sum := weigh (atoi r0).toInt (atoi r1).toInt (atoi r2).toInt (atoi r3).toInt
      if 0 ≤ sum ∧ sum < 2 ^ 32 then some sum.toNat else none
  | _ => none

theorem partsAddress_eq_some {r : List Str} {n : ℕ} :
    partsAddress r = some n ↔ ∃ r0 r1 r2 r3, r = [r0, r1, r2, r3] ∧ n < 2 ^ 32 ∧
      weigh (atoi r0).toInt (atoi r1).toInt (atoi r2).toInt (atoi r3).toInt = n := by
  unfold partsAddress
  split
  · next r0 r1 r2 r3 =>
    simp only [Option.ite_none_right_eq_some, Option.some.injEq]
    constructor
    · rintro ⟨⟨hlo, hhi⟩, rfl⟩
      exact ⟨r0, r1, r2, r3, rfl, by omega, by omega⟩
    · rintro ⟨s0, s1, s2, s3, hr, hn, hsum⟩
      obtain ⟨rfl, rfl, rfl, rfl⟩ : r0 = s0 ∧ r1 = s1 ∧ r2 = s2 ∧ r3 = s3 := by simpa using hr
      omega
  · next hfour =>
    refine iff_of_false (by simp) ?_
    rintro ⟨r0, r1, r2, r3, rfl, -⟩
    exact hfour r0 r1 r2 r3 rfl

/-- Everything that `ip2int` accepts as an address is four decimal octets joined by dots. -/
def AcceptsOnlyQuads (s : Str) : Prop :=
  ∀ v, ip2int s = .ok v → v.toNat < 2 ^ 32 → ∃ q : Quad, s = q.text

/-- **What `ip2int` accepts**: a text is taken for an address exactly if it has four parts that sum
to it; any other text becomes a value of `2 ^ 32` or more, `-1` if it has not four parts. -/
theorem ip2int_accepts_iff (s : Str) (r : List Str) (hr : splitString s [] 46 = .ok r) :
    ∃ v, ip2int s = .ok v ∧ (∀ n < 2 ^ 32, v.toNat = n ↔ partsAddress r = some n) ∧
      (partsAddress r = none → 2 ^ 32 ≤ v.toNat) ∧ (r.length ≠ 4 → v = -1) := by
  obtain ⟨v, hv⟩ := (ip2int_ok_iff s).2 ⟨r, hr⟩
  have hsome : ∀ n < 2 ^ 32, v.toNat = n ↔ partsAddress r = some n := by
    intro n hn
    rw [partsAddress_eq_some]
    constructor
    · rintro rfl
      obtain ⟨r0, r1, r2, r3, hs, hlo, hhi⟩ := (ip2int_lt_iff hv).1 hn
      obtain ⟨v', hv', hsum⟩ := ip2int_parts hs
      obtain rfl : v = v' := Except.ok.inj (hv.symm.trans hv')
      exact ⟨r0, r1, r2, r3, Except.ok.inj (hr.symm.trans hs), hn, by omega⟩
    · rintro ⟨r0, r1, r2, r3, rfl, -, hsum⟩
      obtain ⟨v', hv', hmod⟩ := ip2int_parts hr
      obtain rfl : v = v' := Except.ok.inj (hv.symm.trans hv')
      omega
  refine ⟨v, hv, hsome, fun hnone => ?_, fun hlen => ?_⟩
  · by_contra hlt
    have := (hsome v.toNat (not_le.1 hlt)).1 rfl
    rw [hnone] at this
    cases this
  · exact Except.ok.inj (hv.symm.trans (ip2int_not_four hr hlen))

/-- An octet of `256` carries over into the one before it. -/
theorem ip2int_accepts_iff_carry : ∃ v, ip2int (ascii "0.0.0.256") = .ok v ∧ v.toNat = 256 := by
  obtain ⟨v, hv, hsome, -⟩ := ip2int_accepts_iff (ascii "0.0.0.256")
    [ascii "0", ascii "0", ascii "0", ascii "256"] (by decide +kernel)
  exact ⟨v, hv, (hsome 256 (by decide)).2 (by decide +kernel)⟩

theorem not_acceptsOnlyQuads_of_mem {s : Str} {v : UInt64} (hv : ip2int s = .ok v)
    (hlt : v.toNat < 2 ^ 32) {b : UInt8} (hmem : b ∈ s) (hb : isDigit b = false) (hdot : b ≠ 46) :
    ¬ AcceptsOnlyQuads s := by
  intro h
  obtain ⟨q, rfl⟩ := h v hv hlt
  exact q.notMem_text hb hdot hmem

/-- **Four texts that are no dotted quads and are looked up as addresses**: an octet above 255, a
blank in front, a sign, and a suffix. -/
theorem not_acceptsOnlyQuads :
    ¬ AcceptsOnlyQuads (ascii "0.0.0.256") ∧ ¬ AcceptsOnlyQuads (ascii " 1.2.3.4") ∧
      ¬ AcceptsOnlyQuads (ascii "1.2.3.+4") ∧ ¬ AcceptsOnlyQuads (ascii "1.2.3.4x") := by
  refine ⟨fun h => ?_, ?_, ?_, ?_⟩
  · have hv : ip2int (ascii "0.0.0.256") = .ok 256 := by decide +kernel
    have hparts : splitString (ascii "0.0.0.256") [] 46 =
        .ok [ascii "0", ascii "0", ascii "0", ascii "256"] := by decide +kernel
    obtain ⟨q, hq⟩ := h 256 hv (by decide)
    rw [hq, q.splitString_text] at hparts
    simp only [Except.ok.injEq, List.cons.injEq, and_true] at hparts
    obtain ⟨-, -, -, hd⟩ := hparts
    have hle := q.d.le
    rw [hd] at hle
    exact absurd hle (by decide +kernel)
  · exact not_acceptsOnlyQuads_of_mem (v := 0x01020304) (b := 32) (by decide +kernel) (by decide)
      (by decide) (by decide) (by decide)
  · exact not_acceptsOnlyQuads_of_mem (v := 0x01020304) (b := 43) (by decide +kernel) (by decide)
      (by decide) (by decide) (by decide)
  · exact not_acceptsOnlyQuads_of_mem (v := 0x01020304) (b := 120) (by decide +kernel) (by decide)
      (by decide) (by decide) (by decide)

end IpLib
end MongoUtils
