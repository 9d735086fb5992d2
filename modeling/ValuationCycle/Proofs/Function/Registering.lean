import Mathlib.Data.List.Induction
import Mathlib.Data.List.Nodup
import Std.Data.String.ToNat
import ValuationCycle.Function.Repository

/-!
# Registered functions

Ids count the registrations that were accepted, so no two functions have the same one, and under an
id there is the invoker that was registered with it. A refused registration takes no id and leaves
everything as it is.
-/
namespace ValuationCycle
open Std

/-- A registration that is asked for, of a function that is never invoked or of one that is. -/
inductive Registration where
  | live (shortName : String)
  | invoked (shortName : String) (kind : FunctionKind) (invoker : Invoker)

namespace Registration

def shortName : Registration → String
  | live shortName => shortName
  | invoked shortName _ _ => shortName

def kind : Registration → FunctionKind
  | live _ => .liveDataSourcing
  | invoked _ kind _ => kind

def invoker? : Registration → Option Invoker
  | live _ => none
  | invoked _ _ invoker => some invoker

/-- Whether a registration is acceptable: an invoker is of the kind of its function, and that is a
kind that is invoked. -/
def fits : Registration → Bool
  | live _ => true
  | invoked _ kind invoker => kind.requiresInvocation && invoker.kind == kind

def idAfter (others : Nat) : String := toString (others + 1)

theorem idAfter_inj {m n : Nat} : idAfter m = idAfter n ↔ m = n :=
  Nat.repr_inj.trans Nat.add_right_cancel_iff

def definition (x : Registration) (others : Nat) : FunctionDefinition :=
  ⟨idAfter others, x.shortName, x.kind⟩

variable {x : Registration} {invoker : Invoker}

theorem kind_of_fits (h : x.fits = true) (hx : x.invoker? = some invoker) :
    invoker.kind = x.kind := by
  cases x with
  | live _ => simp [invoker?] at hx
  | invoked _ kind _ =>
      obtain rfl := Option.some.inj hx
      simp only [fits, Bool.and_eq_true, beq_iff_eq] at h
      exact h.2

theorem isSome_invoker?_of_fits (h : x.fits = true) :
    x.invoker?.isSome = x.kind.requiresInvocation := by
  cases x with
  | live _ => rfl
  | invoked _ kind _ =>
      simp only [fits, Bool.and_eq_true] at h
      exact h.1.symm

end Registration

namespace Repository

def register (r : Repository) : Registration →
    Except RegistrationError (Repository × FunctionDefinition)
  | .live shortName => .ok (r.addLive shortName)
  | .invoked shortName kind invoker => r.add shortName kind invoker

def after (r : Repository) (x : Registration) : Repository :=
  match r.register x with
  | .ok (r, _) => r
  | .error _ => r

def afterAll (asked : List Registration) : Repository := asked.foldl after empty

theorem afterAll_concat (asked : List Registration) (x : Registration) :
    afterAll (asked ++ [x]) = (afterAll asked).after x := by
  rw [afterAll, afterAll, List.foldl_append]
  rfl

def extend (r : Repository) (x : Registration) : Repository where
  functions := r.functions ++ [x.definition r.functions.length]
  invokers := match x.invoker? with
    | none => r.invokers
    | some invoker => r.invokers.insert (Registration.idAfter r.functions.length) invoker

variable {r : Repository} {x : Registration} {xs asked : List Registration}

theorem register_of_fits (h : x.fits = true) :
    r.register x = .ok (r.extend x, x.definition r.functions.length) := by
  cases x with
  | live _ => rfl
  | invoked shortName kind invoker =>
      simp only [Registration.fits, Bool.and_eq_true, beq_iff_eq] at h
      rw [register, add, if_neg (by simp [h.1]), if_neg (by simp [h.2])]
      rfl

theorem register_of_not_fits (h : x.fits = false) : ∃ e, r.register x = .error e := by
  cases x with
  | live _ => simp [Registration.fits] at h
  | invoked shortName kind invoker =>
      rw [register, add]
      split
      · exact ⟨_, rfl⟩
      · next hkind =>
          have hmismatch : invoker.kind ≠ kind := by
            rintro rfl
            simp_all [Registration.fits]
          rw [if_pos hmismatch]
          exact ⟨_, rfl⟩

theorem after_of_fits (h : x.fits = true) : r.after x = r.extend x := by
  rw [after, register_of_fits h]

theorem after_of_not_fits (h : x.fits = false) : r.after x = r := by
  obtain ⟨e, he⟩ := register_of_not_fits (r := r) h
  rw [after, he]

theorem invoker?_extend (hnext : r.invoker? (Registration.idAfter r.functions.length) = none)
    (x : Registration) (id : String) (invoker : Invoker) :
    (r.extend x).invoker? id = some invoker ↔ r.invoker? id = some invoker ∨
      x.invoker? = some invoker ∧ Registration.idAfter r.functions.length = id := by
  cases hx : x.invoker? with
  | none => simp [invoker?, extend, hx]
  | some own =>
      simp only [invoker?, extend, hx, ExtTreeMap.getElem?_insert, Option.some.injEq]
      by_cases hid : Registration.idAfter r.functions.length = id
      · subst hid
        rw [invoker?] at hnext
        simp [hnext]
      · simp [hid]

/-- The functions are those of some registrations in order, and the invokers are theirs. -/
structure Keeps (xs : List Registration) (r : Repository) : Prop where
  functions_eq : r.functions = xs.mapIdx fun k x => x.definition k
  invoker_iff : ∀ id invoker, r.invoker? id = some invoker ↔
    ∃ k x, xs[k]? = some x ∧ x.invoker? = some invoker ∧ Registration.idAfter k = id

theorem keeps_empty : Keeps [] empty := ⟨rfl, by simp [invoker?, empty]⟩

theorem Keeps.length_eq (h : Keeps xs r) : r.functions.length = xs.length := by
  rw [h.functions_eq, List.length_mapIdx]

theorem Keeps.mem_functions (h : Keeps xs r) (d : FunctionDefinition) :
    d ∈ r.functions ↔ ∃ (k : ℕ) (x : Registration), xs[k]? = some x ∧ x.definition k = d := by
  rw [h.functions_eq, List.mem_iff_getElem?]
  simp only [List.getElem?_mapIdx, Option.map_eq_some_iff]

/-- The ids count the functions from one. -/
theorem Keeps.map_functionId (h : Keeps xs r) :
    r.functions.map FunctionDefinition.functionId =
      (List.range xs.length).map Registration.idAfter := by
  refine List.ext_getElem? fun k => ?_
  rw [h.functions_eq, List.getElem?_map, List.getElem?_mapIdx, List.getElem?_map, Option.map_map]
  by_cases hk : k < xs.length
  · rw [List.getElem?_range hk, List.getElem?_eq_getElem hk]
    rfl
  · rw [List.getElem?_eq_none (by omega), List.getElem?_eq_none (by simpa using hk)]
    rfl

theorem Keeps.nodup_ids (h : Keeps xs r) :
    (r.functions.map FunctionDefinition.functionId).Nodup := by
  rw [h.map_functionId]
  exact List.nodup_range.map fun _ _ => Registration.idAfter_inj.mp

theorem Keeps.invoker?_next (h : Keeps xs r) :
    r.invoker? (Registration.idAfter r.functions.length) = none := by
  rw [Option.eq_none_iff_forall_ne_some]
  intro invoker hnext
  obtain ⟨k, x, hk, -, hid⟩ := (h.invoker_iff _ _).mp hnext
  have hlt : k < xs.length := (List.getElem?_eq_some_iff.mp hk).1
  rw [Registration.idAfter_inj, h.length_eq] at hid
  omega

/-- There is an invoker exactly under the ids of the functions that are to be invoked. -/
theorem Keeps.exists_invoker_iff (h : Keeps xs r) (hfits : ∀ x ∈ xs, x.fits = true)
    (id : String) : (∃ invoker, r.invoker? id = some invoker) ↔
      ∃ d ∈ r.functions, d.functionId = id ∧ d.kind.requiresInvocation = true := by
  constructor
  · rintro ⟨invoker, hinvoker⟩
    obtain ⟨k, x, hk, hx, rfl⟩ := (h.invoker_iff _ _).mp hinvoker
    have hinvoked := Registration.isSome_invoker?_of_fits (hfits x (List.mem_of_getElem? hk))
    refine ⟨x.definition k, (h.mem_functions _).mpr ⟨k, x, hk, rfl⟩, rfl, ?_⟩
    exact hinvoked.symm.trans (by simp [hx])
  · rintro ⟨d, hd, rfl, hkind⟩
    obtain ⟨k, x, hk, rfl⟩ := (h.mem_functions d).mp hd
    have hinvoked := Registration.isSome_invoker?_of_fits (hfits x (List.mem_of_getElem? hk))
    obtain ⟨invoker, hx⟩ := Option.isSome_iff_exists.mp (hinvoked.trans hkind)
    exact ⟨invoker, (h.invoker_iff _ _).mpr ⟨k, x, hk, hx, rfl⟩⟩

theorem Keeps.kind_eq (h : Keeps xs r) (hfits : ∀ x ∈ xs, x.fits = true) {d : FunctionDefinition}
    {invoker : Invoker} (hd : d ∈ r.functions)
    (hinvoker : r.invoker? d.functionId = some invoker) : invoker.kind = d.kind := by
  obtain ⟨k, x, hk, rfl⟩ := (h.mem_functions d).mp hd
  obtain ⟨j, y, hj, hy, hid⟩ := (h.invoker_iff _ _).mp hinvoker
  obtain rfl := Registration.idAfter_inj.mp hid
  obtain rfl := Option.some.inj (hk.symm.trans hj)
  exact Registration.kind_of_fits (hfits x (List.mem_of_getElem? hk)) hy

theorem Keeps.extend (h : Keeps xs r) (x : Registration) : Keeps (xs ++ [x]) (r.extend x) := by
  refine ⟨?_, fun id invoker => ?_⟩
  · rw [List.mapIdx_concat, ← h.functions_eq, ← h.length_eq]
    rfl
  · rw [invoker?_extend h.invoker?_next, h.invoker_iff, h.length_eq]
    constructor
    · rintro (⟨k, y, hk, hy⟩ | ⟨hx, hid⟩)
      · exact ⟨k, y, by rw [List.getElem?_append_left (List.getElem?_eq_some_iff.mp hk).1, hk], hy⟩
      · exact ⟨xs.length, x, List.getElem?_concat_length, hx, hid⟩
    · rintro ⟨k, y, hk, hy⟩
      rw [List.getElem?_append] at hk
      split at hk
      · exact .inl ⟨k, y, hk, hy⟩
      · rw [List.getElem?_singleton] at hk
        split at hk
        · obtain rfl := Option.some.inj hk
          obtain rfl : k = xs.length := by omega
          exact .inr hy
        · simp at hk

theorem Keeps.after (h : Keeps xs r) (x : Registration) :
    Keeps (xs ++ [x].filter Registration.fits) (r.after x) := by
  cases hx : x.fits with
  | true =>
      rw [after_of_fits hx, List.filter_cons_of_pos hx]
      exact h.extend x
  | false =>
      rw [after_of_not_fits hx, List.filter_cons_of_neg (by simp [hx])]
      simpa using h

theorem keeps_afterAll (asked : List Registration) :
    Keeps (asked.filter Registration.fits) (afterAll asked) := by
  induction asked using List.reverseRecOn with
  | nil => exact keeps_empty
  | append_singleton asked x ih =>
      rw [afterAll_concat, List.filter_append]
      exact ih.after x

/-- After any registrations were asked for, the functions are those of the accepted ones in order,
under the ids `1`, `2` and so on, which are all different. An invoker is found exactly under the
ids of the functions that are to be invoked; it is the one registered with the function, and of the
same kind. What is asked for next is accepted under the next id if it fits, and is refused
otherwise, which changes nothing. -/
theorem registered_under_counted_ids (asked : List Registration) :
    let r := afterAll asked
    let accepted := asked.filter Registration.fits
    r.functions = accepted.mapIdx (fun k x => ⟨toString (k + 1), x.shortName, x.kind⟩) ∧
    (r.functions.map FunctionDefinition.functionId).Nodup ∧
    (∀ id invoker, r.invoker? id = some invoker ↔ ∃ k x, accepted[k]? = some x ∧
      x.invoker? = some invoker ∧ toString (k + 1) = id) ∧
    (∀ id, (∃ invoker, r.invoker? id = some invoker) ↔
      ∃ d ∈ r.functions, d.functionId = id ∧ d.kind.requiresInvocation = true) ∧
    (∀ d ∈ r.functions, ∀ invoker, r.invoker? d.functionId = some invoker →
      invoker.kind = d.kind) ∧
    ∀ x, (x.fits = true → r.register x =
        .ok (r.after x, ⟨toString (accepted.length + 1), x.shortName, x.kind⟩)) ∧
      (x.fits = false → (∃ e, r.register x = .error e) ∧ r.after x = r) := by
  intro r accepted
  have h : Keeps accepted r := keeps_afterAll asked
  have hfits : ∀ x ∈ accepted, x.fits = true := fun x hx => (List.mem_filter.mp hx).2
  refine ⟨h.functions_eq, h.nodup_ids, h.invoker_iff, h.exists_invoker_iff hfits,
    fun d hd invoker => h.kind_eq hfits hd, fun x => ⟨fun hx => ?_, fun hx => ?_⟩⟩
  · rw [register_of_fits hx, after_of_fits hx, h.length_eq]
    rfl
  · exact ⟨register_of_not_fits hx, after_of_not_fits hx⟩

namespace Sample

def silent : Invoker := ⟨.security, fun _ => .returned []⟩

/-- The second registration is refused, since the invoker is of another kind. -/
def opening : List Registration :=
  [.live "Market", .invoked "Sum" .primitive silent, .invoked "Price" .security silent]

end Sample
open Sample

/-- The refused function takes no id, and the one after it is found under the second. -/
theorem price_follows_market :
    (afterAll opening).functions =
      [⟨"1", "Market", .liveDataSourcing⟩, ⟨"2", "Price", .security⟩] ∧
    (afterAll opening).invoker? "2" = some silent ∧
    (¬∃ invoker, (afterAll opening).invoker? "1" = some invoker) ∧
    (afterAll opening).after (.invoked "Sum" .primitive silent) = afterAll opening := by
  obtain ⟨hfunctions, -, hinvoker, hinvoked, -, hnext⟩ := registered_under_counted_ids opening
  refine ⟨hfunctions.trans rfl, (hinvoker "2" silent).mpr ?_, ?_,
    ((hnext (.invoked "Sum" .primitive silent)).2 rfl).2⟩
  · exact ⟨1, .invoked "Price" .security silent, rfl, rfl, rfl⟩
  · rw [hinvoked, hfunctions]
    decide +kernel

end Repository
end ValuationCycle
