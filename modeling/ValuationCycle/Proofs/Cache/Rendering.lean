import ValuationCycle.Specification

/-!
# Texts of specifications

The text of a specification shows names and values as they are, with commas, brackets and other
marks between them. As long as no part has the mark that ends it, the text tells the parts.
-/
namespace ValuationCycle
open Std

/-- A part ends where the mark comes first. -/
theorem append_mark_inj {p q r r' : List Char} {mark : Char} (hp : mark ∉ p) (hq : mark ∉ q)
    (h : p ++ mark :: r = q ++ mark :: r') : p = q ∧ r = r' := by
  induction p generalizing q with
  | nil =>
      cases q with
      | nil => exact ⟨rfl, List.tail_eq_of_cons_eq h⟩
      | cons c q => exact absurd (List.cons.inj h).1 fun he => hq (he ▸ List.mem_cons_self)
  | cons c p ih =>
      cases q with
      | nil => exact absurd (List.cons.inj h).1.symm fun he => hp (he ▸ List.mem_cons_self)
      | cons d q =>
          obtain ⟨rfl, htail⟩ := List.cons.inj h
          obtain ⟨rfl, hr⟩ := ih (fun hm => hp (List.mem_cons_of_mem _ hm))
            (fun hm => hq (List.mem_cons_of_mem _ hm)) htail
          exact ⟨rfl, hr⟩

/-- What comes behind an item of a list: nothing, or a comma and a blank. -/
def Trails (r : List Char) : Prop := r = [] ∨ ∃ rest, r = ',' :: ' ' :: rest

/-- A list of items is written as the first one and, if there are more, a comma, a blank and the
others. -/
theorem exists_trails {α : Type} (f : α → List Char) (a : α) (as : List α) :
    ∃ r, Trails r ∧ (r = [] ↔ as = []) ∧ [',', ' '].intercalate ((a :: as).map f) = f a ++ r ∧
      ∀ rest, r = ',' :: ' ' :: rest → rest = [',', ' '].intercalate (as.map f) := by
  cases as with
  | nil => exact ⟨[], .inl rfl, by simp, by simp, nofun⟩
  | cons b as =>
      refine ⟨',' :: ' ' :: [',', ' '].intercalate ((b :: as).map f), .inr ⟨_, rfl⟩, by simp, ?_,
        fun rest hr => ?_⟩
      · simp [List.intercalate_cons_cons]
      · simpa using hr.symm

/-- A list of items is told from its text if each item is told from what trails it. -/
theorem intercalate_map_inj {α : Type} {f : α → List Char} {as bs : List α}
    (hcut : ∀ a ∈ as, ∀ b ∈ bs, ∀ r r', Trails r → Trails r' → f a ++ r = f b ++ r' →
      a = b ∧ r = r')
    (has : ∀ a ∈ as, f a ≠ []) (hbs : ∀ b ∈ bs, f b ≠ [])
    (h : [',', ' '].intercalate (as.map f) = [',', ' '].intercalate (bs.map f)) : as = bs := by
  induction as generalizing bs with
  | nil =>
      cases bs with
      | nil => rfl
      | cons b bs =>
          obtain ⟨r, -, -, hb, -⟩ := exists_trails f b bs
          rw [hb, List.map_nil, List.intercalate_nil] at h
          exact absurd (List.append_eq_nil_iff.mp h.symm).1 (hbs b (by simp))
  | cons a as ih =>
      obtain ⟨r, hr, hnil, ha, hrest⟩ := exists_trails f a as
      cases bs with
      | nil =>
          rw [ha, List.map_nil, List.intercalate_nil] at h
          exact absurd (List.append_eq_nil_iff.mp h).1 (has a (by simp))
      | cons b bs =>
          obtain ⟨r', hr', hnil', hb, hrest'⟩ := exists_trails f b bs
          rw [ha, hb] at h
          obtain ⟨rfl, rfl⟩ := hcut a (by simp) b (by simp) r r' hr hr' h
          rcases hr with rfl | ⟨rest, rfl⟩
          · rw [hnil.mp rfl, hnil'.mp rfl]
          · have htail : as = bs := ih (fun a ha b hb => hcut a (by simp [ha]) b (by simp [hb]))
              (fun a ha => has a (by simp [ha])) (fun b hb => hbs b (by simp [hb]))
              ((hrest rest rfl).symm.trans (hrest' rest rfl))
            rw [htail]

namespace UniqueId

/-- No part has a mark that could end it. -/
structure Plain (id : UniqueId) : Prop where
  scheme : '~' ∉ id.scheme.toList
  value : '~' ∉ id.value.toList ∧ ']' ∉ id.value.toList
  version : ∀ version ∈ id.version, ']' ∉ version.toList

def versionChars (id : UniqueId) : List Char :=
  match id.version with
  | none => []
  | some version => '~' :: version.toList

theorem toList_toString (id : UniqueId) :
    (toString id).toList = id.scheme.toList ++ '~' :: (id.value.toList ++ id.versionChars) := by
  obtain ⟨scheme, value, version⟩ := id
  cases version <;> simp [toString, versionChars, String.toList_append]

variable {id id' : UniqueId}

theorem Plain.notMem_rest (h : id.Plain) : ']' ∉ id.value.toList ++ id.versionChars := by
  have hversion : ']' ∉ id.versionChars := by
    unfold versionChars
    split
    · exact List.not_mem_nil
    · next version hv => simpa using h.version version hv
  simpa [hversion] using h.value.2

/-- An identifier is told from its text and a bracket behind it. -/
theorem Plain.toString_inj (h : id.Plain) (h' : id'.Plain) {r r' : List Char}
    (he : (toString id).toList ++ ']' :: r = (toString id').toList ++ ']' :: r') :
    id = id' ∧ r = r' := by
  simp only [toList_toString, List.append_assoc, List.cons_append] at he
  obtain ⟨hscheme, he⟩ := append_mark_inj h.scheme h'.scheme he
  rw [← List.append_assoc, ← List.append_assoc] at he
  obtain ⟨hrest, hr⟩ := append_mark_inj h.notMem_rest h'.notMem_rest he
  refine ⟨?_, hr⟩
  obtain ⟨scheme, value, version⟩ := id
  obtain ⟨scheme', value', version'⟩ := id'
  obtain rfl : scheme = scheme' := String.toList_inj.mp hscheme
  have hvalue := h.value.1
  have hvalue' := h'.value.1
  cases version with
  | none =>
      cases version' with
      | none => simpa [versionChars, String.toList_inj] using hrest
      | some version' =>
          simp only [versionChars, List.append_nil] at hrest
          exact absurd (hrest ▸ by simp) hvalue
  | some version =>
      cases version' with
      | none =>
          simp only [versionChars, List.append_nil] at hrest
          exact absurd (hrest ▸ by simp) hvalue'
      | some version' =>
          obtain ⟨hv, hw⟩ := append_mark_inj hvalue hvalue' hrest
          obtain rfl : value = value' := String.toList_inj.mp hv
          obtain rfl : version = version' := String.toList_inj.mp hw
          rfl

end UniqueId

namespace Target

theorem toList_toString (t : Target) : (toString t).toList = "CTSpec[".toList ++
    (t.targetType.name.toList ++ ',' :: ' ' :: ((toString t.identifier).toList ++ [']'])) := by
  simp [toString, String.toList_append]

theorem name_injective {t t' : TargetType} (h : t.name = t'.name) : t = t' :=
  Option.some.inj ((TargetType.ofName?_name t).symm.trans (h ▸ TargetType.ofName?_name t'))

theorem notMem_name (t : TargetType) : ',' ∉ t.name.toList := by
  cases t <;> decide

variable {t t' : Target}

theorem toString_inj (h : t.identifier.Plain) (h' : t'.identifier.Plain) {r r' : List Char}
    (he : (toString t).toList ++ r = (toString t').toList ++ r') : t = t' ∧ r = r' := by
  simp only [toList_toString, List.append_assoc, List.cons_append, List.nil_append] at he
  obtain ⟨hname, he⟩ := append_mark_inj (notMem_name _) (notMem_name _) (List.append_cancel_left he)
  obtain ⟨hid, hr⟩ := h.toString_inj h' (List.cons.inj he).2
  obtain ⟨targetType, id⟩ := t
  obtain ⟨targetType', id'⟩ := t'
  obtain rfl := name_injective (String.toList_inj.mp hname)
  obtain rfl : id = id' := hid
  exact ⟨rfl, hr⟩

end Target

namespace Properties

def Plain (p : Properties) : Prop :=
  ∀ e ∈ p.toList, '=' ∉ e.1.toList ∧ ∀ value ∈ e.2, value ≠ "" ∧ ',' ∉ value.toList ∧
    ']' ∉ value.toList

def valuesChars (values : List String) : List Char :=
  [',', ' '].intercalate (values.map String.toList)

def entryChars (e : String × List String) : List Char :=
  e.1.toList ++ '=' :: '[' :: (valuesChars e.2 ++ [']'])

theorem toList_toString (p : Properties) : (toString p).toList =
    '\x7b' :: ([',', ' '].intercalate (p.toList.map entryChars) ++ ['\x7d']) := by
  have hmap : (p.toList.map fun e => e.1 ++ "=[" ++ ", ".intercalate e.2 ++ "]").map
      String.toList = p.toList.map entryChars := by
    rw [List.map_map]
    refine List.map_congr_left fun e _ => ?_
    simp [entryChars, valuesChars, String.toList_append, String.toList_intercalate]
  change ("\x7b" ++ ", ".intercalate (p.toList.map fun e => e.1 ++ "=[" ++
    ", ".intercalate e.2 ++ "]") ++ "\x7d").toList = _
  simp only [String.toList_append, String.toList_intercalate, hmap]
  rfl

theorem notMem_valuesChars {values : List String}
    (h : ∀ value ∈ values, ']' ∉ value.toList) : ']' ∉ valuesChars values := by
  induction values with
  | nil => simp [valuesChars]
  | cons value values ih =>
      have ih := ih fun v hv => h v (by simp [hv])
      cases values with
      | nil => simpa [valuesChars] using h value (by simp)
      | cons next values =>
          rw [valuesChars, List.map_cons, List.map_cons, List.intercalate_cons_cons,
            ← List.map_cons]
          simpa using ⟨h value (by simp), ih⟩

theorem valuesChars_inj {values values' : List String}
    (h : ∀ value ∈ values, value ≠ "" ∧ ',' ∉ value.toList)
    (h' : ∀ value ∈ values', value ≠ "" ∧ ',' ∉ value.toList)
    (he : valuesChars values = valuesChars values') : values = values' := by
  refine intercalate_map_inj (fun v hv w hw r r' hr hr' hvw => ?_) (fun v hv => ?_)
    (fun w hw => ?_) he
  · have hcomma := (h v hv).2
    have hcomma' := (h' w hw).2
    rcases hr with rfl | ⟨rest, rfl⟩ <;> rcases hr' with rfl | ⟨rest', rfl⟩
    · simpa [String.toList_inj] using hvw
    · rw [List.append_nil] at hvw
      exact absurd (hvw ▸ by simp) hcomma
    · rw [List.append_nil] at hvw
      exact absurd (hvw ▸ by simp) hcomma'
    · obtain ⟨hv, hrest⟩ := append_mark_inj hcomma hcomma' hvw
      exact ⟨String.toList_inj.mp hv, congrArg _ hrest⟩
  · simpa using (h v hv).1
  · simpa using (h' w hw).1

variable {p q : Properties}

theorem Plain.toString_inj (hp : p.Plain) (hq : q.Plain) (h : toString p = toString q) :
    p = q := by
  have hchars := congrArg String.toList h
  rw [toList_toString, toList_toString] at hchars
  refine toList_injective (intercalate_map_inj (fun e he e' he' r r' _ _ hr => ?_)
    (fun e _ => by simp [entryChars]) (fun e _ => by simp [entryChars])
    (List.append_cancel_right (List.cons.inj hchars).2))
  simp only [entryChars, List.append_assoc, List.cons_append, List.nil_append] at hr
  obtain ⟨hname, hr⟩ := append_mark_inj (hp e he).1 (hq e' he').1 hr
  obtain ⟨hvalues, hr⟩ := append_mark_inj
    (notMem_valuesChars fun v hv => ((hp e he).2 v hv).2.2)
    (notMem_valuesChars fun v hv => ((hq e' he').2 v hv).2.2) (List.cons.inj hr).2
  have hvalues := valuesChars_inj (fun v hv => ⟨((hp e he).2 v hv).1, ((hp e he).2 v hv).2.1⟩)
    (fun v hv => ⟨((hq e' he').2 v hv).1, ((hq e' he').2 v hv).2.1⟩) hvalues
  exact ⟨Prod.ext (String.toList_inj.mp hname) hvalues, hr⟩

end Properties

namespace Specification

/-- No part has a mark that could end it, and no permitted value is empty. -/
structure Plain (s : Specification) : Prop where
  valueName : ',' ∉ s.valueName.toList
  identifier : s.target.identifier.Plain
  functionId : ',' ∉ s.functionId.toList
  properties : s.properties.Plain

theorem toList_toString (s : Specification) : (toString s).toList = "VSpec[".toList ++
    (s.valueName.toList ++ ',' :: ' ' :: ((toString s.target).toList ++ ',' :: ' ' ::
      (s.functionId.toList ++ ',' :: ' ' :: ((toString s.properties).toList ++ [']'])))) := by
  change ("VSpec[" ++ s.valueName ++ ", " ++ toString s.target ++ ", " ++ s.functionId ++ ", " ++
    toString s.properties ++ "]").toList = _
  simp [String.toList_append]

variable {s t : Specification}

theorem Plain.toString_inj (hs : s.Plain) (ht : t.Plain) (h : toString s = toString t) :
    s = t := by
  have hchars := congrArg String.toList h
  rw [toList_toString, toList_toString] at hchars
  obtain ⟨hname, he⟩ := append_mark_inj hs.valueName ht.valueName (List.append_cancel_left hchars)
  obtain ⟨htarget, he⟩ := Target.toString_inj hs.identifier ht.identifier (List.cons.inj he).2
  obtain ⟨hfunction, he⟩ := append_mark_inj hs.functionId ht.functionId
    (List.cons.inj (List.cons.inj he).2).2
  have hproperties := String.toList_inj.mp (List.append_cancel_right (List.cons.inj he).2)
  have hproperties := hs.properties.toString_inj ht.properties hproperties
  obtain ⟨valueName, target, functionId, properties⟩ := s
  obtain ⟨valueName', target', functionId', properties'⟩ := t
  simp_all [String.toList_inj]

end Specification
end ValuationCycle
