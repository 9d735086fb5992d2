import Mathlib.Data.List.Induction
import Mathlib.Data.List.Nodup
import Mathlib.Data.List.Perm.Subperm
import ValuationCycle.Cache.Dump
import ValuationCycle.Proofs.Cache.Storing
import ValuationCycle.Proofs.Cache.Rendering

/-!
# What dumps show

A dump keys the entries of a cache by the texts of their specifications. Every text stands for one
record, so entries are merged where the texts of their specifications are the same.
-/
namespace ValuationCycle
open Json Std

namespace Dump

/-- Entries by text: what is left of entries that are listed one after another. -/
def byText (es : List (Specification × Value)) : ExtTreeMap String Value :=
  es.foldl (fun m e => m.insert (toString e.1) e.2) ∅

/-- The records of a dump of entries that are listed in the given order. -/
def recordsOf (es : List (Specification × Value)) : List (String × Value) := (byText es).toList

theorem records_ofCache (configuration : String) (c : Cache) :
    (ofCache configuration c).records = recordsOf c.entries := rfl

/-- Under each text there is the last entry whose specification has it. -/
theorem getElem?_byText (es : List (Specification × Value)) (text : String) :
    (byText es)[text]? = (es.reverse.find? fun e => toString e.1 = text).map Prod.snd := by
  induction es using List.reverseRecOn with
  | nil => simp [byText]
  | append_singleton es e ih =>
      have hstep : byText (es ++ [e]) = (byText es).insert (toString e.1) e.2 := by
        simp [byText]
      rw [hstep, ExtTreeMap.getElem?_insert, List.reverse_append, ih]
      by_cases he : toString e.1 = text <;> simp [he]

variable {es : List (Specification × Value)} {r : String × Value}

theorem mem_recordsOf : r ∈ recordsOf es ↔ (byText es)[r.1]? = some r.2 :=
  ExtTreeMap.mem_toList_iff_getElem?_eq_some

theorem exists_of_mem_recordsOf (hr : r ∈ recordsOf es) :
    ∃ e ∈ es, toString e.1 = r.1 ∧ e.2 = r.2 := by
  rw [mem_recordsOf, getElem?_byText, Option.map_eq_some_iff] at hr
  obtain ⟨e, he, hvalue⟩ := hr
  exact ⟨e, List.mem_reverse.mp (List.mem_of_find?_eq_some he),
    by simpa using List.find?_some he, hvalue⟩

theorem exists_mem_recordsOf {e : Specification × Value} (he : e ∈ es) :
    ∃ v, (toString e.1, v) ∈ recordsOf es := by
  have hsome : (es.reverse.find? fun e' => toString e'.1 = toString e.1).isSome :=
    List.find?_isSome.mpr ⟨e, List.mem_reverse.mpr he, by simp⟩
  obtain ⟨e', he'⟩ := Option.isSome_iff_exists.mp hsome
  exact ⟨e'.2, mem_recordsOf.mpr (by rw [getElem?_byText, he']; rfl)⟩

theorem pairwise_recordsOf (es : List (Specification × Value)) :
    (recordsOf es).Pairwise fun r r' => r.1 < r'.1 :=
  (byText es).ordered_keys_toList.imp compareOfLessAndEq_eq_lt.mp

theorem nodup_recordsOf (es : List (Specification × Value)) :
    ((recordsOf es).map Prod.fst).Nodup :=
  List.pairwise_map.mpr ((pairwise_recordsOf es).imp fun h => String.ne_of_lt h)

/-- Entries of the same text have the same value. -/
def Agree (es : List (Specification × Value)) : Prop :=
  ∀ e ∈ es, ∀ e' ∈ es, toString e.1 = toString e'.1 → e.2 = e'.2

/-- When entries of the same text agree, it does not matter which comes last. -/
theorem Agree.mem_recordsOf (h : Agree es) :
    r ∈ recordsOf es ↔ ∃ e ∈ es, toString e.1 = r.1 ∧ e.2 = r.2 := by
  refine ⟨exists_of_mem_recordsOf, fun ⟨e, he, htext, hvalue⟩ => ?_⟩
  obtain ⟨v, hv⟩ := exists_mem_recordsOf he
  obtain ⟨e', he', htext', hvalue'⟩ := exists_of_mem_recordsOf hv
  have hagree : e'.2 = e.2 := h e' he' e he htext'
  obtain ⟨text, value⟩ := r
  obtain rfl : toString e.1 = text := htext
  obtain rfl : v = value := hvalue'.symm.trans (hagree.trans hvalue)
  exact hv

/-- Of two entries with the same text, the one that is listed last gives the record. -/
theorem mem_recordsOf_append (es : List (Specification × Value)) (e : Specification × Value) :
    (toString e.1, e.2) ∈ recordsOf (es ++ [e]) := by
  rw [mem_recordsOf, getElem?_byText]
  simp

/-- The records do not depend on the order of the entries exactly if entries of the same text
agree. -/
theorem recordsOf_perm_iff : (∀ es', es'.Perm es → recordsOf es' = recordsOf es) ↔ Agree es := by
  constructor
  · intro h e he e' he' htext
    -- Any entry can be the last one of a listing.
    have hlast : ∀ e ∈ es, (byText es)[toString e.1]? = some e.2 := fun e he => by
      obtain ⟨before, after, rfl⟩ := List.append_of_mem he
      have hperm : (before ++ after ++ [e]).Perm (before ++ e :: after) :=
        (List.perm_append_singleton e (before ++ after)).trans List.perm_middle.symm
      have hmem := mem_recordsOf_append (before ++ after) e
      rwa [h _ hperm, mem_recordsOf] at hmem
    have hvalue := (hlast e he).symm.trans (htext ▸ hlast e' he')
    exact Option.some.inj hvalue
  · intro h es' hperm
    have h' : Agree es' := fun e he e' he' => h e (hperm.mem_iff.mp he) e' (hperm.mem_iff.mp he')
    refine congrArg ExtTreeMap.toList (ExtTreeMap.ext_getElem? fun text => Option.ext fun v => ?_)
    have hmem : (text, v) ∈ recordsOf es' ↔ (text, v) ∈ recordsOf es := by
      rw [h'.mem_recordsOf, h.mem_recordsOf]
      simp only [hperm.mem_iff]
    simpa only [mem_recordsOf] using hmem

/-- There is a record for each entry exactly if all entries have different texts. -/
theorem lines_perm_iff :
    ((recordsOf es).map line).Perm (es.map fun e => toString e.1 ++ " -> " ++ e.2.text) ↔
      (es.map fun e => toString e.1).Nodup := by
  constructor
  · intro h
    have hlength : es.length = (recordsOf es).length := by simpa using h.length_eq.symm
    have hsubset : (recordsOf es).map Prod.fst ⊆ es.map fun e => toString e.1 := by
      intro text htext
      obtain ⟨r, hr, rfl⟩ := List.mem_map.mp htext
      obtain ⟨e, he, htext, -⟩ := exists_of_mem_recordsOf hr
      exact List.mem_map.mpr ⟨e, he, htext⟩
    have hperm := ((nodup_recordsOf es).subperm hsubset).perm_of_length_le (by simp [hlength])
    exact hperm.nodup_iff.mp (nodup_recordsOf es)
  · intro h
    have hagree : Agree es := fun e he e' he' htext => by
      rw [List.inj_on_of_nodup_map h he he' htext]
    have hrecords : (recordsOf es).Perm (es.map fun e => (toString e.1, e.2)) := by
      refine (List.perm_ext_iff_of_nodup (nodup_recordsOf es).of_map ?_).mpr fun r => ?_
      · exact List.Nodup.of_map Prod.fst (by rwa [List.map_map])
      · rw [hagree.mem_recordsOf, List.mem_map]
        simp only [Prod.ext_iff]
    have hlines := hrecords.map line
    rwa [List.map_map] at hlines

end Dump

namespace Cache

/-- What is visible through the cache is told apart by the texts of specifications. -/
def Distinguished (c : Cache) : Prop :=
  ∀ s t, (c.get? s).isSome → (c.get? t).isSome → toString s = toString t → s = t

variable {c : Cache}

theorem isSome_get? {s : Specification} : (c.get? s).isSome ↔ ∃ v, (s, v) ∈ c.entries := by
  simp only [mem_entries, Option.isSome_iff_exists]

theorem distinguished_iff_nodup :
    c.Distinguished ↔ (c.entries.map fun e => toString e.1).Nodup := by
  have hmap : (c.entries.map fun e => toString e.1) =
      (c.entries.map Prod.fst).map toString := by simp
  have hmem : ∀ s, s ∈ c.entries.map Prod.fst ↔ (c.get? s).isSome := fun s => by
    simp [isSome_get?]
  rw [hmap]
  constructor
  · intro h
    refine c.nodup_entries.map_on fun s hs t ht htext => ?_
    exact h s t ((hmem s).mp hs) ((hmem t).mp ht) htext
  · intro h s t hs ht htext
    exact List.inj_on_of_nodup_map h ((hmem s).mpr hs) ((hmem t).mpr ht) htext

/-- Entries whose specifications hold no marks are told apart. -/
theorem distinguished_of_plain (h : ∀ s, (c.get? s).isSome → s.Plain) : c.Distinguished :=
  fun s t hs ht htext => (h s hs).toString_inj (h t ht) htext

/-- A dump is ordered by text, each of its records is the text and the value of a visible entry,
and the text of each visible entry has a record. It has one line for every visible entry exactly
if no two of them have specifications of the same text, for which it is enough that no part of a
specification holds a mark. It is the same in whatever order the entries are listed exactly if
entries of the same text have the same value. -/
theorem dump_complete_iff (configuration : String) (c : Cache) :
    ((Dump.ofCache configuration c).records.Pairwise fun r r' => r.1 < r'.1) ∧
      (∀ r ∈ (Dump.ofCache configuration c).records,
        ∃ s, toString s = r.1 ∧ c.get? s = some r.2) ∧
      (∀ s, (c.get? s).isSome →
        ∃ v, (toString s, v) ∈ (Dump.ofCache configuration c).records) ∧
      (((Dump.ofCache configuration c).records.map Dump.line).Perm
        (c.entries.map fun e => toString e.1 ++ " -> " ++ e.2.text) ↔ c.Distinguished) ∧
      ((∀ s, (c.get? s).isSome → s.Plain) → c.Distinguished) ∧
      ((∀ es, es.Perm c.entries → Dump.recordsOf es = (Dump.ofCache configuration c).records) ↔
        ∀ s t u v, c.get? s = some u → c.get? t = some v → toString s = toString t → u = v) := by
  simp only [Dump.records_ofCache]
  refine ⟨Dump.pairwise_recordsOf _, fun r hr => ?_, fun s hs => ?_, ?_,
    distinguished_of_plain, ?_⟩
  · obtain ⟨⟨s, v⟩, he, htext, rfl⟩ := Dump.exists_of_mem_recordsOf hr
    exact ⟨s, htext, mem_entries.mp he⟩
  · obtain ⟨v, he⟩ := isSome_get?.mp hs
    exact Dump.exists_mem_recordsOf (e := (s, v)) he
  · rw [Dump.lines_perm_iff, distinguished_iff_nodup]
  · rw [Dump.recordsOf_perm_iff]
    simp only [Dump.Agree, Prod.forall, mem_entries]
    constructor
    · exact fun h s t u v hs ht htext => h s u hs t v ht htext
    · exact fun h s u hs t v ht htext => h s t u v hs ht htext

namespace Sample

def price (value : String) (version : Option String) : Specification :=
  ⟨"Price", ⟨.security, ⟨"Ticker", value, version⟩⟩, "Default", .none⟩

/-- A cache that holds one and the same value under each of the specifications. -/
def holding (ss : List Specification) : Cache :=
  empty.putMany .allPrivate (ss.map fun s => ⟨s, .bool true⟩)

theorem plain_price {value : String} (h : '~' ∉ value.toList ∧ ']' ∉ value.toList) :
    (price value none).Plain := by
  refine ⟨by simp [price], ⟨by simp [price], h, nofun⟩, by simp [price], ?_⟩
  have hnone : (price value none).properties.toList = [] := rfl
  simp [Properties.Plain, hnone]

end Sample
open Sample

/-- A value with a tilde and a value with a version are shown by the same text. Of two entries
that are both visible the dump has one. -/
theorem version_like_values_are_merged :
    ((holding [price "A~B" none, price "A" (some "B")]).get? (price "A~B" none)).isSome = true ∧
    ((holding [price "A~B" none, price "A" (some "B")]).get? (price "A" (some "B"))).isSome =
      true ∧
    price "A~B" none ≠ price "A" (some "B") ∧
    (Dump.ofCache "Default" (holding [price "A~B" none, price "A" (some "B")])).records.map
      Dump.line = ["VSpec[Price, CTSpec[SECURITY, Ticker~A~B], Default, \x7b\x7d] -> true"] := by
  decide +kernel

/-- Two tickers without marks have one line each. -/
theorem plain_prices_are_told_apart :
    ((Dump.ofCache "Default" (holding [price "A" none, price "B" none])).records.map
      Dump.line).Perm ((holding [price "A" none, price "B" none]).entries.map
        fun e => toString e.1 ++ " -> " ++ e.2.text) := by
  obtain ⟨-, -, -, hlines, hplain, -⟩ :=
    dump_complete_iff "Default" (holding [price "A" none, price "B" none])
  refine hlines.mpr (hplain fun s hs => ?_)
  obtain ⟨v, hv⟩ := isSome_get?.mp hs
  have hprice : s ∈ [price "A" none, price "B" none] := by
    have hentries : (holding [price "A" none, price "B" none]).entries.map Prod.fst =
        [price "A" none, price "B" none] := by decide +kernel
    exact hentries ▸ List.mem_map_of_mem hv
  rcases List.mem_pair.mp hprice with rfl | rfl
  · exact plain_price (by decide)
  · exact plain_price (by decide)

end Cache
end ValuationCycle
