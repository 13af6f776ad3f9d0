import DotLang.Proofs.Courses
import DotLang.Proofs.Faults
/-!
# Subgraphs that are opened again at once

Two bodies of one name that stand next to each other can be written as one.  The first
must set no defaults directly, since they would be in force in the second, and must not
have a body of the same name in it, since its members would be left behind.  The rest of
the text may be anything: bodies of the same name around the place, operands that use the
name later, and faults in either body.

`Fragment.Joins` says that one part becomes another in this way, at some place in it.
Neither the course nor the demands tell them apart, and their walks differ in one opening
of a subgraph that is known already.  So the outcomes are equal (`Tree.outcome_joins`).
-/

namespace DotLang

/-! ## Parts that are alike -/

/-- The walks make the same of every draft. -/
def AlikeWalks (w w' : List Occurrence) : Prop :=
  ∀ d : Draft, w.foldl Draft.add d = w'.foldl Draft.add d

theorem AlikeWalks.refl (w : List Occurrence) : AlikeWalks w w := fun _ => rfl

theorem AlikeWalks.append {w w' more more' : List Occurrence} (h : AlikeWalks w w')
    (h' : AlikeWalks more more') : AlikeWalks (w ++ more) (w' ++ more') := by
  intro d
  rw [List.foldl_append, List.foldl_append, h d, h']

namespace Fragment

/-- The nodes that the operands of a part stand for. -/
def tips (c : Course) : Fragment → List (List Tip)
  | .operand o => [o.tips c]
  | .heads hops => Stmt.tipsHops c hops
  | _ => []

/-- What a part has to meet. -/
def demands (c : Course) : Fragment → List Demand
  | .stmt s => s.demands c
  | .operand o => o.demands c
  | .heads hops => Stmt.demandsHops c hops
  | .body stmts => Stmt.demandsBody c stmts

/-- A visit cannot tell the parts apart. -/
structure Alike (p q : Fragment) : Prop where
  course : ∀ c, p.course c = q.course c
  tips : ∀ c, p.tips c = q.tips c
  demands : ∀ c, p.demands c = q.demands c
  behind : ∀ scope, p.behind scope = q.behind scope
  walk : ∀ scope c, AlikeWalks (p.walk scope c) (q.walk scope c)

/-! ## Joining bodies -/

/-- At one place in the part, two bodies of one name that stand next to each other become
one. -/
inductive Joins : Fragment → Fragment → Prop
  | here {i j : Id} {A B rest : List Stmt} (name : j.value = i.value)
      (settings : ∀ element attrs, .defaults element attrs ∉ A)
      (fresh : i.value ∉ graphNames (Stmt.partsBody A)) :
      Joins (.body (.subgraph (some i) A :: .subgraph (some j) B :: rest))
        (.body (.subgraph (some i) (A ++ B) :: rest))
  | first {s s' : Stmt} {rest : List Stmt} (inner : Joins (.stmt s) (.stmt s')) :
      Joins (.body (s :: rest)) (.body (s' :: rest))
  | rest {s : Stmt} {stmts stmts' : List Stmt} (inner : Joins (.body stmts) (.body stmts')) :
      Joins (.body (s :: stmts)) (.body (s :: stmts'))
  | inside {name : Option Id} {stmts stmts' : List Stmt}
      (inner : Joins (.body stmts) (.body stmts')) :
      Joins (.stmt (.subgraph name stmts)) (.stmt (.subgraph name stmts'))
  | insideOperand {name : Option Id} {stmts stmts' : List Stmt}
      (inner : Joins (.body stmts) (.body stmts')) :
      Joins (.operand (.subgraph name stmts)) (.operand (.subgraph name stmts'))
  | tail {tail tail' : Operand} {hops : List (EdgeOp × Operand)} {attrs : AttrList}
      (inner : Joins (.operand tail) (.operand tail')) :
      Joins (.stmt (.edge tail hops attrs)) (.stmt (.edge tail' hops attrs))
  | hops {tail : Operand} {hops hops' : List (EdgeOp × Operand)} {attrs : AttrList}
      (inner : Joins (.heads hops) (.heads hops')) :
      Joins (.stmt (.edge tail hops attrs)) (.stmt (.edge tail hops' attrs))
  | head {op : EdgeOp} {head head' : Operand} {hops : List (EdgeOp × Operand)}
      (inner : Joins (.operand head) (.operand head')) :
      Joins (.heads ((op, head) :: hops)) (.heads ((op, head') :: hops))
  | later {op : EdgeOp} {head : Operand} {hops hops' : List (EdgeOp × Operand)}
      (inner : Joins (.heads hops) (.heads hops')) :
      Joins (.heads ((op, head) :: hops)) (.heads ((op, head) :: hops'))

end Fragment

/-! ## The place itself -/

namespace Stmt

variable {A B : List Stmt}

theorem courseBody_append (c : Course) (A B : List Stmt) :
    courseBody c (A ++ B) = courseBody (courseBody c A) B := by
  induction A generalizing c with
  | nil => rfl
  | cons first A ih =>
      rw [List.cons_append, courseBody, courseBody]
      exact ih _

theorem demandsBody_append (c : Course) (A B : List Stmt) :
    demandsBody c (A ++ B) = demandsBody c A ++ demandsBody (courseBody c A) B := by
  induction A generalizing c with
  | nil => rfl
  | cons first A ih =>
      rw [List.cons_append, demandsBody, demandsBody, courseBody, ih, List.append_assoc]

/-- Statements that set no defaults leave the scope as it is. -/
theorem walkBody_append (scope : Scope) (c : Course)
    (h : ∀ element attrs, .defaults element attrs ∉ A) :
    walkBody scope c (A ++ B) = walkBody scope c A ++ walkBody scope (courseBody c A) B := by
  induction A generalizing c with
  | nil => rfl
  | cons first A ih =>
      have hbehind : scope.behind first = scope := by
        cases first with
        | defaults element attrs => exact absurd List.mem_cons_self (h element attrs)
        | _ => rfl
      rw [List.cons_append, walkBody, walkBody, courseBody, hbehind,
        ih _ fun element attrs hmem => h element attrs (List.mem_cons_of_mem _ hmem),
        List.append_assoc]

end Stmt

/-- A subgraph stays known. -/
theorem Draft.opening_known {scope scope' : Scope} {key : SubgraphKey} (d : Draft)
    (w : List Occurrence) :
    (w.foldl Draft.add (d.add ⟨scope, .opening key⟩)).add ⟨scope', .opening key⟩ =
      w.foldl Draft.add (d.add ⟨scope, .opening key⟩) := by
  have hkey : key ∈ (d.add ⟨scope, .opening key⟩).subgraphs := by
    show key ∈ (d.opening ⟨scope, key⟩).subgraphs
    rw [Draft.subgraphs_opening]
    split
    · assumption
    · exact List.mem_concat_self
  have hgrows : ∀ (w : List Occurrence) (d : Draft), d.Extends (w.foldl Draft.add d) := by
    intro w
    induction w with
    | nil => exact .refl
    | cons o w ih => exact fun d => (d.extends_add o).trans (ih _)
  exact if_pos ((hgrows w _).subgraphs.subset hkey)

namespace Fragment

section Here
variable {i j : Id} {A B : List Stmt}

/-- The second body goes on where the first one ends. -/
theorem opening_behind (fresh : i.value ∉ graphNames (Stmt.partsBody A)) (c : Course) :
    ((Stmt.subgraph (some i) A).course c).opening (some i.value) =
      Stmt.courseBody (c.opening (some i.value)) A := by
  refine Course.opening_closing ?_
  show (Stmt.courseBody (c.opening (some i.value)) A).closed i.value = []
  rw [Stmt.closedBody_eq _ A fresh, Course.closed_opening]

/-- Behind both bodies the course is as behind the joined one. -/
theorem course_joined (name : j.value = i.value)
    (fresh : i.value ∉ graphNames (Stmt.partsBody A)) (c : Course) :
    (Stmt.subgraph (some j) B).course ((Stmt.subgraph (some i) A).course c) =
      (Stmt.subgraph (some i) (A ++ B)).course c := by
  have hgains := Stmt.gainsBody .top (Stmt.courseBody (c.opening (some i.value)) A) B
  rw [Stmt.course, Option.map_some, name, opening_behind fresh c, Stmt.course, Stmt.course,
    Option.map_some, Stmt.courseBody_append]
  exact Course.closing_closing hgains.members

theorem alike_here (name : j.value = i.value)
    (settings : ∀ element attrs, .defaults element attrs ∉ A)
    (fresh : i.value ∉ graphNames (Stmt.partsBody A)) (rest : List Stmt) :
    Alike (.body (.subgraph (some i) A :: .subgraph (some j) B :: rest))
      (.body (.subgraph (some i) (A ++ B) :: rest)) where
  course c := by
    simp only [Fragment.course, Stmt.courseBody, course_joined name fresh c]
  tips _ := rfl
  demands c := by
    simp only [Fragment.demands, Stmt.demandsBody, course_joined name fresh c, ← List.append_assoc]
    congr 1
    simp only [Stmt.demands, Option.map_some, name, opening_behind fresh c, Stmt.demandsBody_append]
  behind _ := rfl
  walk scope c := by
    simp only [Fragment.walk, Stmt.walkBody, Scope.behind, course_joined name fresh c,
      ← List.append_assoc]
    refine .append (fun d => ?_) (.refl _)
    simp only [Stmt.walk, Option.map_some, Course.key, name, opening_behind fresh c,
      Stmt.walkBody_append _ _ settings, List.foldl_append, List.foldl_cons]
    rw [Draft.opening_known]

end Here

/-! ## The text around it -/

namespace Alike

variable {s s' : Stmt} {o o' : Operand} {hs hs' : List (EdgeOp × Operand)}
  {stmts stmts' : List Stmt}

theorem first (h : Alike (.stmt s) (.stmt s')) (rest : List Stmt) :
    Alike (.body (s :: rest)) (.body (s' :: rest)) := by
  have hcourse : ∀ c, s.course c = s'.course c := h.course
  have hdemands : ∀ c, s.demands c = s'.demands c := h.demands
  have hbehind : ∀ scope : Scope, scope.behind s = scope.behind s' := h.behind
  refine ⟨fun c => ?_, fun _ => rfl, fun c => ?_, fun _ => rfl, fun scope c => ?_⟩
  · simp only [Fragment.course, Stmt.courseBody, hcourse]
  · simp only [Fragment.demands, Stmt.demandsBody, hcourse, hdemands]
  · simp only [Fragment.walk, Stmt.walkBody, hcourse, hbehind]
    exact (h.walk scope c).append (.refl _)

theorem rest (h : Alike (.body stmts) (.body stmts')) (s : Stmt) :
    Alike (.body (s :: stmts)) (.body (s :: stmts')) where
  course c := h.course (s.course c)
  tips _ := rfl
  demands c := congrArg (s.demands c ++ ·) (h.demands (s.course c))
  behind _ := rfl
  walk scope c := .append (.refl _) (h.walk (scope.behind s) (s.course c))

theorem inside (h : Alike (.body stmts) (.body stmts')) (name : Option Id) :
    Alike (.stmt (.subgraph name stmts)) (.stmt (.subgraph name stmts')) where
  course c := congrArg (c.closing · (name.map Id.value)) (h.course _)
  tips _ := rfl
  demands _ := h.demands _
  behind _ := rfl
  walk _ _ := .append (.refl [_]) (h.walk _ _)

theorem insideOperand (h : Alike (.body stmts) (.body stmts')) (name : Option Id) :
    Alike (.operand (.subgraph name stmts)) (.operand (.subgraph name stmts')) := by
  have hcourse : ∀ c, Stmt.courseBody c stmts = Stmt.courseBody c stmts' := h.course
  have hdemands : ∀ c, Stmt.demandsBody c stmts = Stmt.demandsBody c stmts' := h.demands
  refine ⟨fun c => ?_, fun c => ?_, fun c => ?_, fun _ => rfl, fun scope c => ?_⟩
  · simp only [Fragment.course, Operand.course, hcourse]
  · simp only [Fragment.tips, Operand.tips, hcourse]
  · simp only [Fragment.demands, Operand.demands, hcourse, hdemands]
  · exact .append (.refl [_]) (h.walk _ _)

theorem tail (h : Alike (.operand o) (.operand o')) (hops : List (EdgeOp × Operand))
    (attrs : AttrList) : Alike (.stmt (.edge o hops attrs)) (.stmt (.edge o' hops attrs)) := by
  have hcourse : ∀ c, o.course c = o'.course c := h.course
  have htips : ∀ c, o.tips c = o'.tips c := fun c => List.head_eq_of_cons_eq (h.tips c)
  have hdemands : ∀ c, o.demands c = o'.demands c := h.demands
  refine ⟨fun c => ?_, fun _ => rfl, fun c => ?_, fun _ => rfl, fun scope c => ?_⟩
  · simp only [Fragment.course, Stmt.course, hcourse]
  · simp only [Fragment.demands, Stmt.demands, hcourse, htips, hdemands]
  · simp only [Fragment.walk, Stmt.walk, hcourse, htips]
    exact ((h.walk scope c).append (.refl _)).append (.refl _)

theorem hops (h : Alike (.heads hs) (.heads hs')) (tail : Operand) (attrs : AttrList) :
    Alike (.stmt (.edge tail hs attrs)) (.stmt (.edge tail hs' attrs)) := by
  have htips : ∀ c, Stmt.tipsHops c hs = Stmt.tipsHops c hs' := h.tips
  have hdemands : ∀ c, Stmt.demandsHops c hs = Stmt.demandsHops c hs' := h.demands
  refine ⟨fun c => h.course (tail.course c), fun _ => rfl, fun c => ?_, fun _ => rfl,
    fun scope c => ?_⟩
  · simp only [Fragment.demands, Stmt.demands, htips, hdemands]
  · simp only [Fragment.walk, Stmt.walk, htips]
    exact (AlikeWalks.append (.refl _) (h.walk scope _)).append (.refl _)

theorem head (h : Alike (.operand o) (.operand o')) (op : EdgeOp)
    (hops : List (EdgeOp × Operand)) :
    Alike (.heads ((op, o) :: hops)) (.heads ((op, o') :: hops)) := by
  have hcourse : ∀ c, o.course c = o'.course c := h.course
  have htips : ∀ c, o.tips c = o'.tips c := fun c => List.head_eq_of_cons_eq (h.tips c)
  have hdemands : ∀ c, o.demands c = o'.demands c := h.demands
  refine ⟨fun c => ?_, fun c => ?_, fun c => ?_, fun _ => rfl, fun scope c => ?_⟩
  · simp only [Fragment.course, Stmt.courseHops, hcourse]
  · simp only [Fragment.tips, Stmt.tipsHops, hcourse, htips]
  · simp only [Fragment.demands, Stmt.demandsHops, hcourse, hdemands]
  · simp only [Fragment.walk, Stmt.walkHops, hcourse]
    exact (h.walk scope c).append (.refl _)

theorem later (h : Alike (.heads hs) (.heads hs')) (op : EdgeOp) (o : Operand) :
    Alike (.heads ((op, o) :: hs)) (.heads ((op, o) :: hs')) where
  course c := h.course (o.course c)
  tips c := congrArg (o.tips c :: ·) (h.tips (o.course c))
  demands c := congrArg (o.demands c ++ ·) (h.demands (o.course c))
  behind _ := rfl
  walk scope c := .append (.refl _) (h.walk scope (o.course c))

end Alike

theorem Joins.alike {p q : Fragment} (h : Joins p q) : p.Alike q := by
  induction h with
  | here name settings fresh => exact alike_here name settings fresh _
  | first _ ih => exact ih.first _
  | rest _ ih => exact ih.rest _
  | inside _ ih => exact ih.inside _
  | insideOperand _ ih => exact ih.insideOperand _
  | tail _ ih => exact ih.tail _ _
  | hops _ ih => exact ih.hops _ _
  | head _ ih => exact ih.head _ _
  | later _ ih => exact ih.later _ _

end Fragment

/-! ## Texts -/

/-- Two texts that differ in such a place have the same outcome: equal models, or the same
error. -/
theorem Tree.outcome_joins {t t' : Tree} (strict : t'.strict = t.strict)
    (joins : Fragment.Joins (.body t.body) (.body t'.body)) (kind : GraphKind)
    (name : Option String) : t.outcome kind name = t'.outcome kind name := by
  have alike := joins.alike
  have hfault : t.fault? = t'.fault? := congrArg firstFault (alike.demands .start)
  have hdraft : t.draft kind name = t'.draft kind name := by
    unfold Tree.draft
    rw [strict]
    exact alike.walk .top .start _
  rw [Tree.outcome_eq, Tree.outcome_eq, hfault, hdraft]

/-- The bodies stand in a body of the same name, and an operand comes back to it later. -/
theorem Tree.outcome_joins_nested :
    let node (name : String) : Stmt := .node ⟨.ofText name, none⟩ []
    let A : List Stmt := [.edge (.node ⟨.ofText "a", none⟩)
      [(.arrow, .subgraph none [node "b", .subgraph none [node "c"]])] []]
    let B : List Stmt := [.defaults .node [("color", .ofText "red")], node "b",
      .edge (.subgraph none [node "d"]) [(.arrow, .node ⟨.ofText "e", some "n"⟩)] []]
    let text (inner : List Stmt) : Tree := ⟨true, .digraph, none, [
      .subgraph (some (.ofText "s")) (node "x" :: inner),
      .edge (.subgraph (some (.ofText "s")) []) [(.arrow, .node ⟨.ofText "f", none⟩)] []]⟩
    let t := text [.subgraph (some (.ofText "s")) A, .subgraph (some (.ofText "s")) B, node "y"]
    let t' := text [.subgraph (some (.ofText "s")) (A ++ B), node "y"]
    t'.strict = t.strict ∧ Fragment.Joins (.body t.body) (.body t'.body) ∧
      (t.outcome .digraph none).isOk ∧ t.outcome .digraph none = t'.outcome .digraph none := by
  intro node A B text t t'
  have joins : Fragment.Joins (.body t.body) (.body t'.body) :=
    .first (.inside (.rest (.here rfl (by simp [A]) (by decide +kernel))))
  exact ⟨rfl, joins, by decide +kernel,
    @Tree.outcome_joins t t' rfl joins .digraph none⟩

-- The defaults of the first body would be in force in the second.
example :
    let A : List Stmt := [.defaults .node [("color", .ofText "red")]]
    let B : List Stmt := [.node ⟨.ofText "a", none⟩ []]
    let s : Option Id := some (.ofText "s")
    Tree.outcome ⟨false, .digraph, none, [.subgraph s A, .subgraph s B]⟩ .digraph none ≠
      Tree.outcome ⟨false, .digraph, none, [.subgraph s (A ++ B)]⟩ .digraph none := by
  decide +kernel

end DotLang
