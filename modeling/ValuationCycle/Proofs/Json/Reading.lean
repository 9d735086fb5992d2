import Mathlib.Data.List.Chain
import ValuationCycle.Json.Document

/-!
# Reading what was written

The text of a document reads as that document, at any depth and with strings and
names that have no content. A numeral is read back where no character follows
that could belong to it, and no two numerals stand side by side in the tokens of
a document.
-/
namespace ValuationCycle.Json
open Decimal

/-- No numeral goes on in what follows. -/
def Halts (cs : List Char) : Prop :=
  ∀ c ∈ cs.head?, c.isDigit = false ∧ c ≠ '.' ∧ c ≠ 'e' ∧ c ≠ 'E'

theorem digitOf_digitChar (d : Digit) : digitOf (Nat.digitChar d.val) = d := by
  have hd : d.val < 10 := d.isLt
  refine Fin.ext ?_
  simp only [digitOf, Nat.toNat_digitChar_of_lt_ten hd]
  omega

theorem digitsValue_concat (cs : List Char) (c : Char) :
    digitsValue (cs ++ [c]) = 10 * digitsValue cs + (digitOf c).val := by
  simp [digitsValue]

theorem digitsValue_toDigits (n : Nat) : digitsValue (Nat.toDigits 10 n) = n := by
  induction n using Nat.strongRecOn with
  | _ n ih =>
      have hlast : ∀ m < 10, (digitOf (Nat.digitChar m)).val = m := fun m hm =>
        congrArg Fin.val (digitOf_digitChar ⟨m, hm⟩)
      by_cases hn : n < 10
      · rw [Nat.toDigits_of_lt_base hn]
        simp [digitsValue, hlast n hn]
      · rw [Nat.toDigits_of_base_le (by decide) (by omega), digitsValue_concat,
          ih (n / 10) (by omega), hlast _ (Nat.mod_lt _ (by decide))]
        omega

theorem readDigits?_append {ds rest : List Char} (hne : ds ≠ []) (hd : ∀ c ∈ ds, c.isDigit = true)
    (hr : ∀ c ∈ rest.head?, c.isDigit = false) : readDigits? (ds ++ rest) = some (ds, rest) := by
  have htake : rest.takeWhile Char.isDigit = [] ∧ rest.dropWhile Char.isDigit = rest := by
    cases rest with
    | nil => exact ⟨rfl, rfl⟩
    | cons c rest =>
        have := hr c rfl
        simp [this]
  unfold readDigits?
  rw [List.takeWhile_append_of_pos hd, List.dropWhile_append_of_pos hd, htake.1, htake.2,
    List.append_nil]
  cases ds with
  | nil => exact absurd rfl hne
  | cons => rfl

theorem isDigit_toDigits {n : Nat} {c : Char} (hc : c ∈ Nat.toDigits 10 n) : c.isDigit = true :=
  Nat.isDigit_of_mem_toDigits (by decide) (by decide) hc

theorem toDigits_eq_zero_cons {n : Nat} {cs : List Char} (h : Nat.toDigits 10 n = '0' :: cs) :
    cs = [] := by
  induction n using Nat.strongRecOn generalizing cs with
  | _ n ih =>
      by_cases hn : n < 10
      · rw [Nat.toDigits_of_lt_base hn] at h
        exact (List.cons.inj h).2.symm
      · rw [Nat.toDigits_of_base_le (by decide) (by omega)] at h
        cases hq : Nat.toDigits 10 (n / 10) with
        | nil => exact absurd hq Nat.toDigits_ne_nil
        | cons c ds =>
            rw [hq, List.cons_append] at h
            obtain ⟨rfl, -⟩ := List.cons.inj h
            have hds := ih (n / 10) (by omega) hq
            subst hds
            have hzero : n / 10 = 0 := by
              rw [← digitsValue_toDigits (n / 10), hq]
              decide
            omega

namespace Numeral

theorem readWhole?_toDigits {n : Nat} {rest : List Char}
    (hr : ∀ c ∈ rest.head?, c.isDigit = false) :
    readWhole? (Nat.toDigits 10 n ++ rest) = some (n, rest) := by
  unfold readWhole?
  rw [readDigits?_append Nat.toDigits_ne_nil (fun c hc => isDigit_toDigits hc) hr]
  split
  · next h =>
      obtain ⟨h, -⟩ := Prod.mk.inj (Option.some.inj h)
      exact absurd (toDigits_eq_zero_cons h) (by simp)
  · next h =>
      obtain ⟨rfl, rfl⟩ := Prod.mk.inj (Option.some.inj h)
      rw [digitsValue_toDigits]
  · next h => simp at h

def fractionChars : List Digit → List Char
  | [] => []
  | ds => '.' :: ds.map fun d => Nat.digitChar d.val

def exponentChars : Option Int → List Char
  | none => []
  | some e => 'e' :: (if e < 0 then '-' else '+') :: Nat.toDigits 10 e.natAbs

theorem chars_eq (n : Numeral) : n.chars =
    (if n.negative then ['-'] else []) ++ (Nat.toDigits 10 n.whole ++
      (fractionChars n.fraction ++ exponentChars n.exponent)) := by
  obtain ⟨negative, whole, fraction, exponent⟩ := n
  cases fraction <;> cases exponent <;> simp [chars, fractionChars, exponentChars]

theorem readFraction?_fractionChars (ds : List Digit) {rest : List Char}
    (hr : ∀ c ∈ rest.head?, c.isDigit = false ∧ c ≠ '.') :
    readFraction? (fractionChars ds ++ rest) = some (ds, rest) := by
  cases ds with
  | nil =>
      unfold readFraction?
      split
      · next cs heq =>
          have : rest = '.' :: cs := heq
          exact absurd rfl (hr '.' (by simp [this])).2
      · rfl
  | cons d ds =>
      have hdigit : ∀ c ∈ (d :: ds).map (fun d => Nat.digitChar d.val), c.isDigit = true := by
        intro c hc
        obtain ⟨d, -, rfl⟩ := List.mem_map.mp hc
        simp [Nat.isDigit_digitChar]
      have hmap : ((d :: ds).map fun d => Nat.digitChar d.val).map digitOf = d :: ds := by
        rw [List.map_map]
        exact (List.map_congr_left fun d _ => digitOf_digitChar d).trans (List.map_id _)
      have hread := readDigits?_append (by simp) hdigit fun c hc => (hr c hc).1
      simp only [fractionChars, List.cons_append, readFraction?] at hread ⊢
      rw [hread, Option.map_some, hmap]

theorem readPower?_toDigits (negative : Bool) (n : Nat) {rest : List Char}
    (hr : ∀ c ∈ rest.head?, c.isDigit = false) :
    readPower? negative (Nat.toDigits 10 n ++ rest) =
      some (if negative then -(n : Int) else n, rest) := by
  unfold readPower?
  rw [readDigits?_append Nat.toDigits_ne_nil (fun c hc => isDigit_toDigits hc) hr]
  simp [digitsValue_toDigits]

theorem readExponent?_exponentChars (e : Option Int) {rest : List Char} (hr : Halts rest) :
    readExponent? (exponentChars e ++ rest) = some (e, rest) := by
  cases e with
  | none =>
      cases rest with
      | nil => rfl
      | cons c rest =>
          obtain ⟨-, -, he, hE⟩ := hr c rfl
          simp [exponentChars, readExponent?, he, hE]
  | some e =>
      have hdigit : ∀ c ∈ rest.head?, c.isDigit = false := fun c hc => (hr c hc).1
      by_cases hneg : e < 0
      · simp only [exponentChars, hneg, reduceIte, List.cons_append, readExponent?, true_or,
          readPower?_toDigits true _ hdigit, Option.map_some, Option.some.injEq, Prod.mk.injEq,
          and_true]
        omega
      · simp only [exponentChars, hneg, reduceIte, List.cons_append, readExponent?, true_or,
          readPower?_toDigits false _ hdigit, Option.map_some, Option.some.injEq, Prod.mk.injEq,
          and_true, Bool.false_eq_true]
        omega

theorem head?_fractionChars (ds : List Digit) : fractionChars ds = [] ∨
    (fractionChars ds).head? = some '.' := by
  cases ds <;> simp [fractionChars]

theorem head?_exponentChars (e : Option Int) : exponentChars e = [] ∨
    (exponentChars e).head? = some 'e' := by
  cases e <;> simp [exponentChars]

theorem readUnsigned?_chars (n : Numeral) {rest : List Char} (hr : Halts rest) :
    readUnsigned? n.negative (Nat.toDigits 10 n.whole ++
      (fractionChars n.fraction ++ (exponentChars n.exponent ++ rest))) = some (n, rest) := by
  have hexponent : ∀ c ∈ (exponentChars n.exponent ++ rest).head?,
      c.isDigit = false ∧ c ≠ '.' := by
    intro c hc
    rcases head?_exponentChars n.exponent with h | h
    · rw [h] at hc
      exact ⟨(hr c hc).1, (hr c hc).2.1⟩
    · rw [List.head?_append, h] at hc
      obtain rfl := Option.some.inj hc
      decide
  have hfraction : ∀ c ∈ (fractionChars n.fraction ++
      (exponentChars n.exponent ++ rest)).head?, c.isDigit = false := by
    intro c hc
    rcases head?_fractionChars n.fraction with h | h
    · rw [h] at hc
      exact (hexponent c hc).1
    · rw [List.head?_append, h] at hc
      obtain rfl := Option.some.inj hc
      decide
  simp only [readUnsigned?, readWhole?_toDigits hfraction, Option.bind_eq_bind, Option.bind_some,
    readFraction?_fractionChars _ hexponent, readExponent?_exponentChars _ hr, Option.pure_def]

/-- A numeral is read off the front of a text where none goes on. -/
theorem read?_chars (n : Numeral) {rest : List Char} (hr : Halts rest) :
    read? (n.chars ++ rest) = some (n, rest) := by
  have h := readUnsigned?_chars n hr
  rw [chars_eq]
  cases hneg : n.negative with
  | true =>
      rw [hneg] at h
      simpa [read?] using h
  | false =>
      rw [hneg] at h
      simp only [Bool.false_eq_true, reduceIte, List.nil_append, List.append_assoc]
      unfold read?
      split
      · next cs heq =>
          cases hd : Nat.toDigits 10 n.whole with
          | nil => exact absurd hd Nat.toDigits_ne_nil
          | cons c ds =>
              rw [hd, List.cons_append] at heq
              have hc : c.isDigit = true := isDigit_toDigits (n := n.whole) (by simp [hd])
              rw [(List.cons.inj heq).1] at hc
              exact absurd hc (by decide)
      · exact h

theorem toInt?_ofInt (n : Int) : (ofInt n).toInt? = some n := by
  have hzero : ¬(n < 0 ∧ n.natAbs = 0) := by omega
  simp only [ofInt, toInt?, decide_eq_true_eq, true_and, hzero, not_false_eq_true, reduceIte,
    Option.some.injEq]
  split <;> omega

end Numeral

theorem readCodes?_cons {c : Char} {cs : List Char} (hquote : c ≠ '"') (hslash : c ≠ '\\')
    (hc : 32 ≤ c.toNat) :
    readCodes? (c :: cs) = (readCodes? cs).map fun r => (c.toNat :: r.1, r.2) := by
  have hlt : ¬c.toNat < 32 := by omega
  rw [readCodes?.eq_def]
  split
  · next h => exact absurd (List.cons.inj h).1 hquote
  · next h => exact absurd (List.cons.inj h).1 hslash
  · next h => exact absurd (List.cons.inj h).1 hslash
  · next h =>
      obtain ⟨rfl, rfl⟩ := List.cons.inj h
      rw [if_neg hlt]
  · next h => simp at h

theorem readCodes?_escaped {c : Char} {code : Nat} {cs : List Char} (hu : c ≠ 'u')
    (hc : escapeCode? c = some code) :
    readCodes? ('\\' :: c :: cs) = (readCodes? cs).map fun r => (code :: r.1, r.2) := by
  rw [readCodes?.eq_def]
  split
  · next h => simp at h
  · next h =>
      obtain ⟨-, h⟩ := List.cons.inj h
      exact absurd (List.cons.inj h).1 hu
  · next h =>
      obtain ⟨-, h⟩ := List.cons.inj h
      obtain ⟨rfl, rfl⟩ := List.cons.inj h
      rw [hc]
      cases readCodes? cs <;> rfl
  · next hno h =>
      obtain ⟨rfl, rfl⟩ := List.cons.inj h
      exact (hno c cs rfl rfl).elim
  · next h => simp at h

theorem readCodes?_unicode {a b c d : Char} {code : Nat} {cs : List Char}
    (hc : hexCode? a b c d = some code) :
    readCodes? ('\\' :: 'u' :: a :: b :: c :: d :: cs) =
      (readCodes? cs).map fun r => (code :: r.1, r.2) := by
  rw [readCodes?, hc]
  cases readCodes? cs <;> rfl

theorem hexCode?_control : ∀ n < 32,
    hexCode? '0' '0' (Nat.digitChar (n / 16)) (Nat.digitChar (n % 16)) = some n := by decide

theorem readCodes?_escape (c : Char) (cs : List Char) :
    readCodes? (escape c ++ cs) = (readCodes? cs).map fun r => (c.toNat :: r.1, r.2) := by
  unfold escape
  split
  · exact readCodes?_escaped (by decide) rfl
  · exact readCodes?_escaped (by decide) rfl
  · exact readCodes?_escaped (by decide) rfl
  · exact readCodes?_escaped (by decide) rfl
  · exact readCodes?_escaped (by decide) rfl
  · next hquote hslash _ _ _ =>
      split
      · next h => exact h ▸ readCodes?_escaped (by decide) rfl
      · split
        · next h => exact h ▸ readCodes?_escaped (by decide) rfl
        · split
          · next h => exact readCodes?_unicode (hexCode?_control _ h)
          · next h => exact readCodes?_cons hquote hslash (by omega)

theorem readCodes?_flatMap_escape (s rest : List Char) :
    readCodes? (s.flatMap escape ++ '"' :: rest) = some (s.map Char.toNat, rest) := by
  induction s with
  | nil => simp [readCodes?]
  | cons c s ih =>
      rw [List.flatMap_cons, List.append_assoc, readCodes?_escape, ih]
      rfl

theorem not_half (c : Char) : isHighHalf c.toNat = false ∧ isLowHalf c.toNat = false := by
  have hc := c.valid
  have he : c.toNat = c.val.toNat := rfl
  simp only [isHighHalf, isLowHalf, Bool.and_eq_false_iff, decide_eq_false_iff_not]
  rcases hc with h | h <;> omega

theorem pairHalves?_map_toNat (s : List Char) : pairHalves? (s.map Char.toNat) = some s := by
  induction s with
  | nil => rfl
  | cons c s ih =>
      obtain ⟨hhigh, hlow⟩ := not_half c
      cases s with
      | nil => simp [pairHalves?, hhigh, hlow]
      | cons d s =>
          simp only [List.map_cons] at ih ⊢
          simp [pairHalves?, hhigh, hlow, ih]

theorem unquote?_quote (s : Option String) (rest : List Char) :
    ∃ cs, quote s ++ rest = '"' :: cs ∧ unquote? cs = some (s, rest) := by
  cases s with
  | none =>
      refine ⟨_, rfl, ?_⟩
      change (readCodes? ('\\' :: 'u' :: 'd' :: '8' :: '0' :: '0' :: '"' :: rest)).map _ = _
      have hcode : hexCode? 'd' '8' '0' '0' = some 0xD800 := by decide
      rw [readCodes?_unicode hcode]
      simp [readCodes?, pairHalves?, isHighHalf]
  | some s =>
      refine ⟨s.toList.flatMap escape ++ '"' :: rest, by simp [quote], ?_⟩
      simp [unquote?, readCodes?_flatMap_escape, pairHalves?_map_toNat]

namespace Token

def isNumber : Token → Bool
  | number _ => true
  | _ => false

theorem next?_number {cs : List Char} {c : Char} (hc : cs.head? = some c)
    (h : c.isDigit = true ∨ c = '-') :
    next? cs = (Numeral.read? cs).map fun r => (number r.1, r.2) := by
  cases cs with
  | nil => simp at hc
  | cons d cs =>
      obtain rfl := Option.some.inj hc
      unfold next?
      split
      case h_11 => rfl
      all_goals
        next heq =>
          rw [(List.cons.inj heq).1] at h
          simp at h

theorem head?_chars_number (n : Numeral) :
    ∃ c, n.chars.head? = some c ∧ (c.isDigit = true ∨ c = '-') := by
  rw [Numeral.chars_eq]
  cases n.negative with
  | true => exact ⟨'-', rfl, .inr rfl⟩
  | false =>
      cases hd : Nat.toDigits 10 n.whole with
      | nil => exact absurd hd Nat.toDigits_ne_nil
      | cons c ds => exact ⟨c, rfl, .inl (isDigit_toDigits (n := n.whole) (by simp [hd]))⟩

/-- A token is taken off the front of a text, a numeral where none goes on. -/
theorem next?_chars (t : Token) {rest : List Char} (hr : t.isNumber = true → Halts rest) :
    next? (t.chars ++ rest) = some (t, rest) := by
  cases t with
  | bool b => cases b <;> rfl
  | number n =>
      obtain ⟨c, hc, hdigit⟩ := head?_chars_number n
      have hhead : (n.chars ++ rest).head? = some c := by rw [List.head?_append, hc]; rfl
      change next? (n.chars ++ rest) = _
      rw [next?_number hhead hdigit, Numeral.read?_chars n (hr rfl)]
      rfl
  | string s =>
      obtain ⟨cs, he, hs⟩ := unquote?_quote s rest
      change next? (quote s ++ rest) = _
      rw [he, next?, hs]
      rfl
  | _ => rfl

theorem exists_head?_chars (t : Token) : ∃ c, t.chars.head? = some c ∧ isBlank c = false ∧
    (t.isNumber = false → c.isDigit = false ∧ c ≠ '.' ∧ c ≠ 'e' ∧ c ≠ 'E') := by
  cases t with
  | bool b => cases b <;> exact ⟨_, rfl, by decide, fun _ => by decide⟩
  | number n =>
      obtain ⟨c, hc, hdigit⟩ := head?_chars_number n
      refine ⟨c, hc, ?_, by simp [isNumber]⟩
      rcases hdigit with h | rfl
      · refine Bool.eq_false_iff.mpr fun hb => ?_
        simp only [isBlank, Bool.or_eq_true, decide_eq_true_eq] at hb
        rcases hb with ((rfl | rfl) | rfl) | rfl <;> simp at h
      · decide
  | string s =>
      obtain ⟨cs, he, -⟩ := unquote?_quote s []
      rw [List.append_nil] at he
      change ∃ c, (quote s).head? = some c ∧ _
      rw [he]
      exact ⟨_, rfl, by decide, fun _ => by decide⟩
  | _ => exact ⟨_, rfl, by decide, fun _ => by decide⟩

def Apart (t u : Token) : Prop := t.isNumber = false ∨ u.isNumber = false

/-- A row of tokens without neighbouring numerals is read back from its text. -/
theorem lex?_flatMap_chars {ts : List Token} (h : ts.IsChain Apart) :
    lex? (ts.flatMap chars) = some ts := by
  induction ts with
  | nil =>
      rw [List.flatMap_nil, lex?]
      rfl
  | cons t ts ih =>
      obtain ⟨c, hc, hblank, -⟩ := exists_head?_chars t
      have hrest : t.isNumber = true → Halts (ts.flatMap chars) := by
        intro ht d hd
        cases ts with
        | nil => simp at hd
        | cons u ts =>
            obtain ⟨hu, -⟩ := List.isChain_cons_cons.mp h
            obtain ⟨c, hc, -, hhalts⟩ := exists_head?_chars u
            rw [List.flatMap_cons, List.head?_append, hc] at hd
            obtain rfl := Option.some.inj hd
            exact hhalts (hu.resolve_left (by simp [ht]))
      have hdrop : (t.chars ++ ts.flatMap chars).dropWhile isBlank =
          t.chars ++ ts.flatMap chars := by
        cases hcs : t.chars with
        | nil => simp [hcs] at hc
        | cons d cs =>
            rw [hcs] at hc
            obtain rfl := Option.some.inj hc
            simp [hblank]
      have hne : t.chars ++ ts.flatMap chars ≠ [] := by
        intro he
        have := (List.append_eq_nil_iff.mp he).1
        simp [this] at hc
      rw [List.flatMap_cons, lex?, hdrop, if_neg hne]
      split
      · next hn => simp [next?_chars t hrest] at hn
      · next hn =>
          rw [next?_chars t hrest] at hn
          obtain ⟨rfl, rfl⟩ := Prod.mk.inj (Option.some.inj hn)
          rw [ih (List.isChain_of_isChain_cons h)]
          rfl

end Token

namespace Document

theorem isChain_append_comma (ts us : List Token) {t : Token} (ht : t.isNumber = false)
    (hts : ts.IsChain Token.Apart) (hus : us.IsChain Token.Apart) :
    (ts ++ t :: us).IsChain Token.Apart := by
  refine List.isChain_append.mpr ⟨hts, ?_, ?_⟩
  · cases us with
    | nil => exact List.isChain_singleton _
    | cons u us => exact List.isChain_cons_cons.mpr ⟨.inl ht, hus⟩
  · intro a _ b hb
    obtain rfl := Option.some.inj hb
    exact .inr ht

theorem isChain_separated {tss : List (List Token)} (h : ∀ ts ∈ tss, ts.IsChain Token.Apart) :
    (separated tss).IsChain Token.Apart := by
  induction tss with
  | nil => exact List.isChain_nil
  | cons ts rest ih =>
      cases rest with
      | nil => exact h ts (by simp)
      | cons us rest =>
          exact isChain_append_comma _ _ rfl (h ts (by simp))
            (ih fun vs hvs => h vs (by simp [hvs]))

mutual
theorem isChain_tokens (d : Document) : d.tokens.IsChain Token.Apart := by
  cases d with
  | array items =>
      exact isChain_append_comma (.openArray :: separated (tokensOfItems items)) [] rfl
        (isChain_append_comma [] _ rfl List.isChain_nil
          (isChain_separated (isChain_tokensOfItems items))) List.isChain_nil
  | object members =>
      exact isChain_append_comma (.openObject :: separated (tokensOfMembers members)) [] rfl
        (isChain_append_comma [] _ rfl List.isChain_nil
          (isChain_separated (isChain_tokensOfMembers members))) List.isChain_nil
  | _ => exact List.isChain_singleton _

theorem isChain_tokensOfItems (items : List Document) :
    ∀ ts ∈ tokensOfItems items, ts.IsChain Token.Apart := by
  cases items with
  | nil => simp [tokensOfItems]
  | cons item rest =>
      intro ts hts
      rcases List.mem_cons.mp hts with rfl | hts
      · exact isChain_tokens item
      · exact isChain_tokensOfItems rest ts hts

theorem isChain_tokensOfMembers (members : List (Option String × Document)) :
    ∀ ts ∈ tokensOfMembers members, ts.IsChain Token.Apart := by
  cases members with
  | nil => simp [tokensOfMembers]
  | cons member rest =>
      obtain ⟨name, content⟩ := member
      intro ts hts
      rcases List.mem_cons.mp hts with rfl | hts
      · exact isChain_append_comma [.string name] _ rfl (List.isChain_singleton _)
          (isChain_tokens content)
      · exact isChain_tokensOfMembers rest ts hts
end

end Document

namespace Reading

def run (r : Reading) (ts : List Token) : Option Reading := ts.foldlM step r

theorem run_cons (r : Reading) (t : Token) (ts : List Token) :
    r.run (t :: ts) = (r.step t).bind fun r => r.run ts := rfl

theorem run_append (r : Reading) (ts us : List Token) :
    r.run (ts ++ us) = (r.run ts).bind fun r => r.run us := by
  simp [run, List.foldlM_append]

open Document

mutual
/-- Where a value is due, the tokens of a document complete it. -/
theorem run_tokens (d : Document) (first : Bool) (frames : List Frame) :
    Reading.run ⟨.value first, frames⟩ d.tokens = some ⟨.follow d, frames⟩ := by
  cases d with
  | array items =>
      change Reading.run ⟨.value true, .array [] :: frames⟩
        (separated (tokensOfItems items) ++ [.closeArray]) = _
      by_cases hne : items = []
      · subst hne
        rfl
      · exact run_items items hne true [] frames
  | object members =>
      change Reading.run ⟨.name [] true, frames⟩
        (separated (tokensOfMembers members) ++ [.closeObject]) = _
      by_cases hne : members = []
      · subst hne
        rfl
      · exact run_members members hne true [] frames
  | _ => rfl

theorem run_items (items : List Document) (hne : items ≠ []) (first : Bool)
    (held : List Document) (frames : List Frame) :
    Reading.run ⟨.value first, .array held :: frames⟩
      (separated (tokensOfItems items) ++ [.closeArray]) =
      some ⟨.follow (.array (held.reverse ++ items)), frames⟩ := by
  cases items with
  | nil => exact absurd rfl hne
  | cons item rest =>
      cases rest with
      | nil =>
          change Reading.run _ (item.tokens ++ [.closeArray]) = _
          rw [run_append, run_tokens item first]
          simp [run, step, stepFollow]
      | cons next rest =>
          change Reading.run _ ((item.tokens ++
            .comma :: separated (tokensOfItems (next :: rest))) ++ [.closeArray]) = _
          rw [List.append_assoc, run_append, run_tokens item first, Option.bind_some,
            List.cons_append, run_cons]
          change Reading.run ⟨.value false, .array (item :: held) :: frames⟩ _ = _
          rw [run_items (next :: rest) (by simp) false]
          simp

theorem run_members (members : List (Option String × Document)) (hne : members ≠ [])
    (first : Bool) (held : List (Option String × Document)) (frames : List Frame) :
    Reading.run ⟨.name held first, frames⟩
      (separated (tokensOfMembers members) ++ [.closeObject]) =
      some ⟨.follow (.object (held.reverse ++ members)), frames⟩ := by
  cases members with
  | nil => exact absurd rfl hne
  | cons member rest =>
      obtain ⟨name, content⟩ := member
      cases rest with
      | nil =>
          change Reading.run ⟨.value false, .object held name :: frames⟩
            (content.tokens ++ [.closeObject]) = _
          rw [run_append, run_tokens content false]
          simp [run, step, stepFollow]
      | cons next rest =>
          change Reading.run ⟨.value false, .object held name :: frames⟩
            ((content.tokens ++ .comma :: separated (tokensOfMembers (next :: rest))) ++
              [.closeObject]) = _
          rw [List.append_assoc, run_append, run_tokens content false, Option.bind_some,
            List.cons_append, run_cons]
          change Reading.run ⟨.name ((name, content) :: held) false, frames⟩ _ = _
          rw [run_members (next :: rest) (by simp) false]
          simp
end

end Reading

namespace Document

theorem ofTokens?_tokens (d : Document) : ofTokens? d.tokens = some d := by
  have h : d.tokens.foldlM Reading.step Reading.start = some ⟨.follow d, []⟩ :=
    Reading.run_tokens d false []
  rw [ofTokens?, h]
  rfl

/-- Every document is read back from its text. -/
theorem parse?_text (d : Document) : parse? d.text = some d := by
  rw [parse?, text, String.toList_ofList, Token.lex?_flatMap_chars (isChain_tokens d)]
  exact ofTokens?_tokens d

end Document
end ValuationCycle.Json
