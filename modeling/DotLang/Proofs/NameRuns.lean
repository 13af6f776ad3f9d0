import DotLang.Proofs.NameTable
import Mathlib.Data.List.Forall2
import Mathlib.Logic.Function.Basic
/-!
# Runs of a table of names

The builder calls three operations on a table of names: it opens a scope, it hoists the
innermost one into the one around it, and it binds a name that no scope has.  For all that
is found, the scopes might as well not be there: behind any such calls a name has the value
that one dictionary of all inserted pairs gives it (`Run.flat`).

Hoisting moves the bindings of a scope one by one, and a scope says nothing about their
order.  So a step of `Run` may take any order that goes through the scope, and `Alike` says
that two tables have the same scopes, whatever order their bindings are kept in.  Opening,
binding and hoisting keep tables alike, hoisting even if the two go through their scopes in
different orders (`Alike.hoistBy`), and `hoist` itself is alike to all of them
(`Alike.hoistBy_hoist`).

Hoisting loses the inner of two bindings of one name.  What excludes this is that the names
of all scopes are distinct (`Names.Distinct`), which the guard of an insertion keeps.
-/

namespace DotLang.Names

variable {α : Type} {t t' t0 u u' : Names α} {name : String} {value a : α}
  {order order' scope scope' : List (String × α)} {answers answers' : List (Option α)}

/-! ## Hoisting in any order -/

/-- The scope with one more binding, if it has none for the name. -/
def bindNew (scope : List (String × α)) (p : String × α) : List (String × α) :=
  if (scope.lookup p.1).isSome then scope else scope ++ [p]

/-- Closes the innermost scope and binds its names in the scope around it, one by one in the
given order. -/
def hoistBy (order : List (String × α)) (t : Names α) : Names α :=
  match t.scopes with
  | _ :: outer :: rest => ⟨order.foldl bindNew outer :: rest⟩
  | _ => ⟨[]⟩

/-- The list goes through a scope: every name of the scope stands in it once, with the value
that it has there. -/
structure GoesThrough (order scope : List (String × α)) : Prop where
  distinct : (order.map Prod.fst).Nodup
  mem_iff : ∀ {name a}, (name, a) ∈ order ↔ scope.lookup name = some a

/-- If the names of a scope are distinct, its bindings may be taken in any order. -/
theorem goesThrough_of_perm (h : order.Perm scope) (distinct : (scope.map Prod.fst).Nodup) :
    GoesThrough order scope where
  distinct := (h.map Prod.fst).nodup_iff.2 distinct
  mem_iff := h.mem_iff.trans (lookup_eq_some_of_nodup distinct).symm

theorem GoesThrough.lookup_eq (h : GoesThrough order scope) (name : String) :
    order.lookup name = scope.lookup name := by
  refine Option.ext fun a => ?_
  rw [lookup_eq_some_of_nodup h.distinct, h.mem_iff]

theorem lookup_bindNew (scope : List (String × α)) (p : String × α) (name : String) :
    (bindNew scope p).lookup name = (scope.lookup name).or ([p].lookup name) := by
  unfold bindNew
  split
  · next known =>
      obtain ⟨a, ha⟩ := Option.isSome_iff_exists.1 known
      by_cases hn : name = p.1
      · rw [hn, ha, Option.some_or]
      · have other : [p].lookup name = none := by simpa [List.lookup_cons] using hn
        rw [other, Option.or_none]
  · exact List.lookup_append

/-- Bindings that are there already win over those that are moved. -/
theorem lookup_bindAll (scope order : List (String × α)) (name : String) :
    (order.foldl bindNew scope).lookup name = (scope.lookup name).or (order.lookup name) := by
  induction order generalizing scope with
  | nil => simp
  | cons p order ih =>
      rw [List.foldl_cons, ih, lookup_bindNew, Option.or_assoc, ← List.lookup_append,
        List.singleton_append]

/-! ## Tables that are alike -/

/-- The tables have the same scopes, up to the order in which bindings are kept. -/
def Alike (t t' : Names α) : Prop :=
  List.Forall₂ (fun s s' => ∀ name, s.lookup name = s'.lookup name) t.scopes t'.scopes

namespace Alike

theorem refl (t : Names α) : t.Alike t := List.forall₂_same.2 fun _ _ _ => rfl

theorem depth_eq (h : t.Alike t') : t.depth = t'.depth := List.Forall₂.length_eq h

theorem find?_eq (h : t.Alike t') (name : String) : t.find? name = t'.find? name := by
  obtain ⟨scopes⟩ := t
  obtain ⟨scopes'⟩ := t'
  simp only [Alike, find?] at h ⊢
  induction h with
  | nil => rfl
  | cons hs _ ih => rw [List.findSome?_cons, List.findSome?_cons, hs name, ih]

theorem enter (h : t.Alike t') : t.enter.Alike t'.enter := .cons (fun _ => rfl) h

theorem insert (h : t.Alike t') (name : String) (value : α) :
    (t.insert name value).Alike (t'.insert name value) := by
  obtain ⟨scopes⟩ := t
  obtain ⟨scopes'⟩ := t'
  have cons : ∀ {s s' : List (String × α)}, (∀ other, s.lookup other = s'.lookup other) →
      ∀ other, ((name, value) :: s).lookup other = ((name, value) :: s').lookup other := by
    intro s s' hs other
    rw [List.lookup_cons, List.lookup_cons, hs other]
  cases h with
  | nil => exact .cons (cons fun _ => rfl) .nil
  | cons hs rest => exact .cons (cons hs) rest

/-- The order in which the bindings of a scope are moved does not matter. -/
theorem hoistBy (h : t.Alike t') (through : GoesThrough order (t.scopes.headD []))
    (through' : GoesThrough order' (t'.scopes.headD [])) :
    (t.hoistBy order).Alike (t'.hoistBy order') := by
  obtain ⟨scopes⟩ := t
  obtain ⟨scopes'⟩ := t'
  cases h with
  | nil => exact .nil
  | cons inner rest =>
      cases rest with
      | nil => exact .nil
      | cons outer rest =>
          refine .cons (fun name => ?_) rest
          rw [lookup_bindAll, lookup_bindAll, outer name, through.lookup_eq, through'.lookup_eq]
          exact congrArg _ (inner name)

/-- Hoisting moves the bindings in one of the orders. -/
theorem hoistBy_hoist (h : t.Alike t') (through : GoesThrough order (t.scopes.headD [])) :
    (t.hoistBy order).Alike t'.hoist := by
  obtain ⟨scopes⟩ := t
  obtain ⟨scopes'⟩ := t'
  cases h with
  | nil => exact .nil
  | cons inner rest =>
      cases rest with
      | nil => exact .nil
      | cons outer rest =>
          refine .cons (fun name => ?_) rest
          rw [lookup_bindAll, through.lookup_eq, List.lookup_append, outer name]
          exact congrArg _ (inner name)

end Alike

/-! ## Runs -/

/-- A call on a table of names. -/
inductive Call (α : Type)
  | enter
  | hoist
  | insert (name : String) (value : α)
deriving DecidableEq, Repr

/-- The table behind a call. -/
def Call.apply (t : Names α) : Call α → Names α
  | .enter => t.enter
  | .hoist => t.hoist
  | .insert name value => t.insert name value

/-- What a call does to a dictionary without scopes. -/
def Call.record (d : String → Option α) : Call α → String → Option α
  | .insert name value => Function.update d name (some value)
  | _ => d

/-- The dictionary of all pairs that calls insert. -/
def dictionary (calls : List (Call α)) : String → Option α := calls.foldl Call.record fun _ => none

/-- Calls that lead from one table to another, with what the innermost scope had before each
insertion.  Only a scope that has another one around it is hoisted, in any order, and only
a name is bound that no scope has. -/
inductive Run : Names α → List (Call α) → List (Option α) → Names α → Prop
  | nil (t : Names α) : Run t [] [] t
  | enter {t u : Names α} {calls : List (Call α)} {answers : List (Option α)}
      (rest : Run t.enter calls answers u) : Run t (.enter :: calls) answers u
  | hoist {t u : Names α} {calls : List (Call α)} {answers : List (Option α)}
      {order : List (String × α)} (deep : 2 ≤ t.depth)
      (through : GoesThrough order (t.scopes.headD []))
      (rest : Run (t.hoistBy order) calls answers u) : Run t (.hoist :: calls) answers u
  | insert {t u : Names α} {calls : List (Call α)} {answers : List (Option α)} {name : String}
      {value : α} (new : t.find? name = none) (rest : Run (t.insert name value) calls answers u) :
      Run t (.insert name value :: calls) (t.findLocal? name :: answers) u

namespace Run

variable {calls : List (Call α)}

/-- Runs of the same calls from tables that are alike end in tables that are alike. -/
theorem alike (h : Run t calls answers u) (h' : Run t' calls answers' u') (start : t.Alike t') :
    u.Alike u' := by
  induction h generalizing t' answers' with
  | nil t =>
      cases h'
      exact start
  | enter _ ih =>
      cases h' with
      | enter rest' => exact ih rest' start.enter
  | hoist _ through _ ih =>
      cases h' with
      | hoist _ through' rest' => exact ih rest' (start.hoistBy through through')
  | insert _ _ ih =>
      cases h' with
      | insert _ rest' => exact ih rest' (start.insert _ _)

/-- No insertion finds its name in the innermost scope. -/
theorem answers_eq_none (h : Run t calls answers u) : ∀ answer ∈ answers, answer = none := by
  induction h with
  | nil => exact fun _ ha => absurd ha List.not_mem_nil
  | enter _ ih => exact ih
  | hoist _ _ _ ih => exact ih
  | insert new _ ih => exact List.forall_mem_cons.2 ⟨findLocal?_of_find? new, ih⟩

/-- A run goes along with the calls as the table makes them.  There no name is bound twice, so
a call does to what is found what it does to a dictionary. -/
theorem along (h : Run t calls answers u) (start : t.Alike t0) (distinct : t0.Distinct) :
    u.Alike (calls.foldl Call.apply t0) ∧
      (calls.foldl Call.apply t0).find? = calls.foldl Call.record t0.find? := by
  induction h generalizing t0 with
  | nil => exact ⟨start, rfl⟩
  | enter _ ih => exact ih start.enter distinct
  | hoist deep through _ ih =>
      have deep0 : 2 ≤ t0.depth := start.depth_eq ▸ deep
      have found : t0.hoist.find? = t0.find? := funext (distinct.find?_hoist deep0)
      have h0 := ih (start.hoistBy_hoist through) (distinct.hoist deep0)
      rwa [found] at h0
  | @insert t u calls answers name value new _ ih =>
      have new0 : t0.find? name = none := (start.find?_eq name).symm.trans new
      have found : (t0.insert name value).find? = Function.update t0.find? name (some value) := by
        funext other
        rw [find?_insert, Function.update_apply]
      have h0 := ih (start.insert name value) (distinct.insert new0)
      rwa [found] at h0

/-- A run from a table with one empty scope finds what one dictionary of all inserted pairs
has.  No insertion replaces a value, and every run of the same calls ends in the same
scopes, as does the one that makes its calls with `hoist`: the order in which bindings are
moved does not matter. -/
theorem flat (h : Run empty.enter calls answers t) :
    (∀ name, t.find? name = dictionary calls name) ∧ (∀ answer ∈ answers, answer = none) ∧
      t.Alike (calls.foldl Call.apply empty.enter) ∧
        ∀ answers' t', Run empty.enter calls answers' t' → t'.Alike t := by
  obtain ⟨same, found⟩ := h.along (.refl _) List.nodup_nil
  refine ⟨fun name => ?_, h.answers_eq_none, same, fun _ _ h' => h'.alike h (.refl _)⟩
  rw [same.find?_eq, found]
  rfl

/-- Two scopes are hoisted, both in another order than the one they are kept in, and a scope
beside them is opened. -/
theorem flat_siblings :
    let calls : List (Call Nat) := [.insert "a" 1, .enter, .insert "b" 2, .enter, .insert "c" 3,
      .insert "d" 4, .hoist, .hoist, .enter, .insert "e" 5]
    ∃ t, Run empty.enter calls [none, none, none, none, none] t ∧ t.depth = 2 ∧
      (∀ name, t.find? name = dictionary calls name) ∧ t.find? "c" = some 3 ∧
        t.Alike (calls.foldl Call.apply empty.enter) ∧
          ∀ answers' t', Run empty.enter calls answers' t' → t'.Alike t := by
  intro calls
  have inner : GoesThrough [("c", 3), ("d", 4)] [("d", 4), ("c", 3)] :=
    goesThrough_of_perm (by decide) (by decide)
  have outer : GoesThrough [("d", 4), ("b", 2), ("c", 3)] [("b", 2), ("c", 3), ("d", 4)] :=
    goesThrough_of_perm (by decide) (by decide)
  have run : Run empty.enter calls [none, none, none, none, none]
      ⟨[[("e", 5)], [("a", 1), ("d", 4), ("b", 2), ("c", 3)]]⟩ := by
    refine .insert rfl (.enter (.insert rfl (.enter (.insert rfl (.insert rfl ?_)))))
    exact .hoist (by decide) inner (.hoist (by decide) outer (.enter (.insert rfl (.nil _))))
  obtain ⟨found, _, same, any⟩ := Run.flat run
  exact ⟨_, run, rfl, found, (found "c").trans (by decide), same, any⟩

end Run

end DotLang.Names
