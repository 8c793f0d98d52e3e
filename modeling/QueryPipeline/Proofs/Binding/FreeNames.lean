import QueryPipeline.Proofs.Binding.Subquery

/-!
The names that an expression reads from around it. What an expression means depends on the
outlines of these parameters and on what they stand for, and on no other parameter: a lambda
that names nothing around it means the same wherever it stands.
-/

namespace QueryPipeline

variable {engine : Engine} {registry : Registry} {other? : Others}

/-! ### Free names -/

namespace Expr

mutual
/-- The names of the parameters around it that an expression reads. -/
def freeNames : Expr → List String
  | .const _ _ => []
  | .param name => [name]
  | .member target _ => target.freeNames
  | .unary _ operand => operand.freeNames
  | .binary _ left right => left.freeNames ++ right.freeNames
  | .cond test ifTrue ifFalse => test.freeNames ++ (ifTrue.freeNames ++ ifFalse.freeNames)
  | .new members => memberFreeNames members
  | .index array position => array.freeNames ++ position.freeNames
  | .call source c => source.freeNames ++ callFreeNames c
  | .lambda parameters body => body.freeNames.filter fun name => !parameters.contains name

def memberFreeNames : List (String × Expr) → List String
  | [] => []
  | (_, e) :: rest => e.freeNames ++ memberFreeNames rest

def callFreeNames : Call Expr → List String
  | ⟨_, _, _, arguments⟩ => argumentFreeNames arguments

def argumentFreeNames : List Expr → List String
  | [] => []
  | e :: rest => e.freeNames ++ argumentFreeNames rest
end

theorem callFreeNames_eq (call : Call Expr) :
    callFreeNames call = call.arguments.flatMap freeNames := by
  obtain ⟨declaringType, name, types, arguments⟩ := call
  change argumentFreeNames arguments = _
  induction arguments with
  | nil => rfl
  | cons e rest ih => rw [argumentFreeNames, ih, List.flatMap_cons]

end Expr

/-! ### What meanings look at -/

/-- The same is known under some names. -/
def AgreeOn {α : Type} (names : List String) (f g : String → Option α) : Prop :=
  ∀ name ∈ names, f name = g name

namespace AgreeOn

variable {α : Type} {names names' : List String} {f g : String → Option α}

theorem mono (h : AgreeOn names f g) (sub : ∀ name ∈ names', name ∈ names) :
    AgreeOn names' f g := fun name hname => h name (sub name hname)

theorem left (h : AgreeOn (names ++ names') f g) : AgreeOn names f g :=
  h.mono fun _ => List.mem_append_left _

theorem right (h : AgreeOn (names ++ names') f g) : AgreeOn names' f g :=
  h.mono fun _ => List.mem_append_right _

/-- A parameter that is bound on both sides is one more that agrees. -/
theorem update {parameter : String}
    (h : AgreeOn (names.filter fun name => !([parameter].contains name)) f g) (a : Option α) :
    AgreeOn names (Function.update f parameter a) (Function.update g parameter a) := by
  intro name hname
  by_cases same : name = parameter
  · rw [same, Function.update_self, Function.update_self]
  · rw [Function.update_of_ne same, Function.update_of_ne same]
    exact h name (List.mem_filter.mpr ⟨hname, by simpa using same⟩)

end AgreeOn

/-- A meaning looks at no other parameters than those with given names. -/
def Meaning.LooksAt (names : List String) (m : Meaning) : Prop :=
  ∀ ⦃data data'⦄, AgreeOn names data data' → m.datum data = m.datum data'

namespace Meaning.LooksAt

variable {names names' : List String} {m : Meaning}

theorem mono (h : m.LooksAt names) (sub : ∀ name ∈ names, name ∈ names') :
    m.LooksAt names' := fun _ _ agree => h (agree.mono sub)

theorem record {members : List (String × Meaning)} (h : ∀ m ∈ members, m.2.LooksAt names) :
    (Meaning.record members).LooksAt names := by
  intro data data' agree
  have parts : members.mapM (fun m => (m.2.datum data).map (m.1, ·)) =
      members.mapM fun m => (m.2.datum data').map (m.1, ·) := by
    induction members with
    | nil => rfl
    | cons m rest ih =>
      rw [List.mapM_cons, List.mapM_cons, h m List.mem_cons_self agree,
        ih fun m' hm' => h m' (List.mem_cons_of_mem _ hm')]
  simp only [Meaning.record, parts]

end Meaning.LooksAt

/-- An argument looks at no other parameters than those with given names. -/
def Operand.LooksAt (names : List String) : Operand → Prop
  | .lambda parameter body => ∀ o m, body o = some m → ∀ ⦃data data'⦄,
      AgreeOn names data data' → ∀ d,
        m.datum (Function.update data parameter d) = m.datum (Function.update data' parameter d)
  | .value _ meaning => ∀ m, meaning = some m → m.LooksAt names

def Selector.LooksAt (names : List String) (f : Selector) : Prop :=
  ∀ ⦃data data'⦄, AgreeOn names data data' → f.value data = f.value data'

def Sequel.LooksAt (names : List String) (q : Sequel) : Prop :=
  ∀ ⦃data data'⦄, AgreeOn names data data' → q.value data = q.value data'

namespace Operand.LooksAt

variable {names : List String} {o : Operand}

theorem mono {names' : List String} (h : o.LooksAt names)
    (sub : ∀ name ∈ names, name ∈ names') : o.LooksAt names' := by
  cases o with
  | lambda => exact fun outline m hm _ _ agree => h outline m hm (agree.mono sub)
  | value => exact fun m hm => (h m hm).mono sub

theorem selector {codec : Codec} {f : Selector} (h : o.LooksAt names)
    (hf : o.selector? codec = some f) : f.LooksAt names := by
  cases o with
  | lambda parameter body =>
    obtain ⟨m, hm, hf⟩ := Option.bind_eq_some_iff.mp hf
    obtain rfl := Option.some.inj hf
    intro data data' agree
    funext v
    exact congrArg (Option.map Datum.stored) (h _ m hm agree _)
  | value => cases hf

theorem meaning {m : Meaning} (h : o.LooksAt names) (hm : o.meaning? = some m) :
    m.LooksAt names := by
  cases o with
  | lambda => cases hm
  | value => exact h m hm

end Operand.LooksAt

namespace Sequel.LooksAt

variable {names : List String}

theorem ofTable {codec : Codec} {f : Selector} (h : f.LooksAt names)
    (g : List (Value × Option Value) → Option Value) :
    (Sequel.ofTable codec f g).LooksAt names := by
  intro data data' agree
  simp only [Sequel.ofTable, Selector.table, h agree]

/-- Narrowed items look at what the predicate looks at. -/
theorem narrowed {codec itemCodec : Codec} {operands : List Operand}
    {g : List Value → Option Value} {q : Sequel} (h : ∀ o ∈ operands, o.LooksAt names)
    (hq : Sequel.narrowed engine codec itemCodec operands g = some q) : q.LooksAt names := by
  unfold Sequel.narrowed at hq
  split at hq
  · obtain rfl := Option.some.inj hq
    exact fun _ _ _ => rfl
  · rename_i predicate
    obtain ⟨f, hf, hq⟩ := Option.bind_eq_some_iff.mp hq
    obtain rfl := Option.some.inj hq
    exact .ofTable ((h predicate List.mem_cons_self).selector hf) _
  · cases hq

/-- **What a method makes of items looks at what its arguments look at.** -/
theorem of_method {codec : Codec} {method : String} {operands : List Operand} {q : Sequel}
    (h : ∀ o ∈ operands, o.LooksAt names)
    (hq : Sequel.ofMethod? engine codec method operands = some q) : q.LooksAt names := by
  -- What is made of a table looks at what the lambda of the table looks at.
  have table {o : Operand} {g : Selector → Sequel} (ho : o ∈ operands)
      (made : ∀ f, f.LooksAt names → (g f).LooksAt names)
      (hq : (o.selector? codec).bind (some ∘ g) = some q) : q.LooksAt names := by
    obtain ⟨f, hf, hq⟩ := Option.bind_eq_some_iff.mp hq
    obtain rfl := Option.some.inj hq
    exact made f ((h o ho).selector hf)
  have page {n : Option Nat} {g : Nat → Sequel} (same : ∀ n data data',
      (g n).value data = (g n).value data') (hq : n.map g = some q) : q.LooksAt names := by
    obtain ⟨n, -, rfl⟩ := Option.map_eq_some_iff.mp hq
    exact fun data data' _ => same n data data'
  unfold Sequel.ofMethod? at hq
  split at hq
  · exact table List.mem_cons_self (fun f hf => .ofTable hf _) hq
  · exact table List.mem_cons_self (fun f hf => .ofTable hf _) hq
  · exact page (fun _ _ _ => rfl) hq
  · exact page (fun _ _ _ => rfl) hq
  · obtain rfl := Option.some.inj hq
    exact fun _ _ _ => rfl
  · exact table List.mem_cons_self (fun f hf => .ofTable hf _) hq
  · exact table List.mem_cons_self (fun f hf => .ofTable hf _) hq
  · obtain ⟨m, hm, hq⟩ := Option.bind_eq_some_iff.mp hq
    obtain rfl := Option.some.inj hq
    intro data data' agree
    simp only [((h _ List.mem_cons_self).meaning hm) agree]
  · exact narrowed h hq
  · exact narrowed h hq
  · exact narrowed h hq
  · exact narrowed h hq
  · exact narrowed h hq
  · exact page (fun _ _ _ => rfl) hq
  · exact page (fun _ _ _ => rfl) hq
  · cases hq

end Sequel.LooksAt

/-! ### Expressions -/

/-- What other expressions mean depends on the parameters that they read. -/
structure Others.Local (other? : Others) : Prop where
  congr {scope scope' : String → Option Outline} {e : Expr} :
    AgreeOn e.freeNames scope scope' → other? scope e = other? scope' e
  looksAt {scope : String → Option Outline} {e : Expr} {m : Meaning} :
    other? scope e = some m → m.LooksAt e.freeNames

/-- What an expression means depends on the parameters that it reads. -/
structure Expr.Local (engine : Engine) (registry : Registry) (other? : Others) (e : Expr) :
    Prop where
  congr {scope scope' : String → Option Outline} : AgreeOn e.freeNames scope scope' →
    e.meaning? engine registry other? scope = e.meaning? engine registry other? scope'
  looksAt {scope : String → Option Outline} {m : Meaning} :
    e.meaning? engine registry other? scope = some m → m.LooksAt e.freeNames

namespace Expr

section Operands

variable {e : Expr} (self : e.Local engine registry other?)
  (inside : ∀ parameter body, e = .lambda [parameter] body → body.Local engine registry other?)

include self inside

theorem operand_congr {scope scope' : String → Option Outline}
    (agree : AgreeOn e.freeNames scope scope') :
    e.operand engine registry other? scope = e.operand engine registry other? scope' := by
  unfold operand
  split
  · rename_i parameter body
    have same : (fun o => body.meaning? engine registry other?
        (Function.update scope parameter (some o))) = fun o =>
        body.meaning? engine registry other? (Function.update scope' parameter (some o)) :=
      funext fun o => (inside parameter body rfl).congr (agree.update (some o))
    rw [same]
  · rw [self.congr agree]

theorem operand_looksAt (scope : String → Option Outline) :
    (e.operand engine registry other? scope).LooksAt e.freeNames := by
  unfold operand
  split
  · rename_i parameter body
    intro o m hm data data' agree d
    exact (inside parameter body rfl).looksAt hm (agree.update d)
  · exact fun m hm => self.looksAt hm

end Operands

/-- The members of a record, each with its own meaning. -/
structure MembersLocal (engine : Engine) (registry : Registry) (other? : Others)
    (members : List (String × Expr)) : Prop where
  congr {scope scope' : String → Option Outline} :
    AgreeOn (memberFreeNames members) scope scope' →
    memberMeanings? engine registry other? scope members =
      memberMeanings? engine registry other? scope' members
  looksAt {scope : String → Option Outline} {ms : List (String × Meaning)} :
    memberMeanings? engine registry other? scope members = some ms →
    ∀ m ∈ ms, m.2.LooksAt (memberFreeNames members)

namespace Local

theorem const (v : Value) (type : ValueType) :
    (Expr.const v type).Local engine registry other? where
  congr _ := by rw [meaning?, meaning?]
  looksAt hm := by
    obtain ⟨codec, -, rfl⟩ := Option.map_eq_some_iff.mp hm
    exact fun _ _ _ => rfl

theorem param (name : String) : (Expr.param name).Local engine registry other? where
  congr agree := by rw [meaning?, meaning?, agree name List.mem_cons_self]
  looksAt hm := by
    obtain ⟨o, -, rfl⟩ := Option.map_eq_some_iff.mp hm
    exact fun _ _ agree => agree name List.mem_cons_self

theorem member {target : Expr} (h : target.Local engine registry other?) (name : String) :
    (Expr.member target name).Local engine registry other? where
  congr agree := by rw [meaning?, meaning?, h.congr agree]
  looksAt hm := by
    obtain ⟨mt, hmt, hm⟩ := Option.bind_eq_some_iff.mp hm
    obtain ⟨⟨o, read⟩, -, hm⟩ := Option.bind_eq_some_iff.mp hm
    obtain rfl := Option.some.inj hm
    intro data data' agree
    simp only [h.looksAt hmt agree]

theorem unary {operand : Expr} (h : operand.Local engine registry other?) (op : UnaryOp) :
    (Expr.unary op operand).Local engine registry other? where
  congr agree := by rw [meaning?, meaning?, h.congr agree]
  looksAt hm := by
    obtain ⟨mo, hmo, hm⟩ := Option.bind_eq_some_iff.mp hm
    obtain rfl := Option.some.inj hm
    intro data data' agree
    simp only [h.looksAt hmo agree]

theorem binary {left right : Expr} (hl : left.Local engine registry other?)
    (hr : right.Local engine registry other?) (op : BinaryOp) :
    (Expr.binary op left right).Local engine registry other? where
  congr agree := by rw [meaning?, meaning?, hl.congr agree.left, hr.congr agree.right]
  looksAt hm := by
    obtain ⟨ml, hml, hm⟩ := Option.bind_eq_some_iff.mp hm
    obtain ⟨mr, hmr, hm⟩ := Option.bind_eq_some_iff.mp hm
    obtain rfl := Option.some.inj hm
    intro data data' agree
    simp only [hl.looksAt hml agree.left, hr.looksAt hmr agree.right]

theorem cond {test ifTrue ifFalse : Expr} (ht : test.Local engine registry other?)
    (hyes : ifTrue.Local engine registry other?) (hno : ifFalse.Local engine registry other?) :
    (Expr.cond test ifTrue ifFalse).Local engine registry other? where
  congr agree := by
    rw [meaning?, meaning?, ht.congr agree.left, hyes.congr agree.right.left,
      hno.congr agree.right.right]
  looksAt hm := by
    obtain ⟨mt, hmt, hm⟩ := Option.bind_eq_some_iff.mp hm
    obtain ⟨myes, hmyes, hm⟩ := Option.bind_eq_some_iff.mp hm
    obtain ⟨mno, hmno, hm⟩ := Option.bind_eq_some_iff.mp hm
    obtain rfl := Option.some.inj hm
    intro data data' agree
    simp only [ht.looksAt hmt agree.left, hyes.looksAt hmyes agree.right.left,
      hno.looksAt hmno agree.right.right]

theorem new {members : List (String × Expr)}
    (h : MembersLocal engine registry other? members) :
    (Expr.new members).Local engine registry other? where
  congr agree := by rw [meaning?, meaning?, h.congr agree]
  looksAt hm := by
    obtain ⟨ms, hms, hm⟩ := Option.bind_eq_some_iff.mp hm
    obtain rfl := Option.some.inj hm
    exact .record (h.looksAt hms)

theorem index {array position : Expr} (ha : array.Local engine registry other?)
    (hp : position.Local engine registry other?) :
    (Expr.index array position).Local engine registry other? where
  congr agree := by rw [meaning?, meaning?, ha.congr agree.left, hp.congr agree.right]
  looksAt hm := by
    obtain ⟨ma, hma, hm⟩ := Option.bind_eq_some_iff.mp hm
    obtain ⟨mp, hmp, hm⟩ := Option.bind_eq_some_iff.mp hm
    split at hm
    · obtain rfl := Option.some.inj hm
      intro data data' agree
      simp only [ha.looksAt hma agree.left, hp.looksAt hmp agree.right]
    · cases hm

/-- A call reads what its source and its arguments read. -/
theorem call (others : other?.Local) {source : Expr} {call : Call Expr}
    (hs : source.Local engine registry other?)
    (arguments : ∀ e ∈ call.arguments, e.Local engine registry other? ∧
      ∀ parameter body, e = .lambda [parameter] body → body.Local engine registry other?) :
    (Expr.call source call).Local engine registry other? where
  congr {scope scope'} agree := by
    have within : AgreeOn (call.arguments.flatMap freeNames) scope scope' :=
      callFreeNames_eq call ▸ agree.right
    have operands : callOperands engine registry other? scope call =
        callOperands engine registry other? scope' call := by
      rw [callOperands_eq, callOperands_eq]
      refine List.map_congr_left fun e he => ?_
      exact operand_congr (arguments e he).1 (arguments e he).2
        (within.mono fun name hname => List.mem_flatMap.mpr ⟨e, he, hname⟩)
    rw [meaning?, meaning?, hs.congr agree.left, operands, others.congr agree]
  looksAt {scope m} hm := by
    rw [meaning?] at hm
    rcases (Option.orElse_eq_some _ _ _).mp hm with hm | ⟨_, hm⟩
    · obtain ⟨ms, hms, hm⟩ := Option.bind_eq_some_iff.mp hm
      obtain ⟨codec, -, hm⟩ := Option.bind_eq_some_iff.mp hm
      obtain ⟨q, hq, hm⟩ := Option.bind_eq_some_iff.mp hm
      obtain rfl := Option.some.inj hm
      have looksAt : q.LooksAt (callFreeNames call) := by
        refine .of_method ?_ hq
        rw [callOperands_eq, callFreeNames_eq]
        rintro _ ho
        obtain ⟨e, he, rfl⟩ := List.mem_map.mp ho
        exact (operand_looksAt (arguments e he).1 (arguments e he).2 scope).mono
          fun name hname => List.mem_flatMap.mpr ⟨e, he, hname⟩
      intro data data' agree
      simp only [hs.looksAt hms agree.left, looksAt agree.right]
    · exact others.looksAt hm

end Local

-- By recursion on expressions, with the arguments of calls as they stand and, of lambdas, the
-- bodies.
mutual
/-- **What an expression means depends on the parameters that it reads**, and on no other. -/
theorem isLocal (others : other?.Local) : (e : Expr) → e.Local engine registry other?
  | .const v type => .const v type
  | .param name => .param name
  | .member target name => .member (isLocal others target) name
  | .unary op operand => .unary (isLocal others operand) op
  | .binary op left right => .binary (isLocal others left) (isLocal others right) op
  | .cond test ifTrue ifFalse =>
      .cond (isLocal others test) (isLocal others ifTrue) (isLocal others ifFalse)
  | .new members => .new (isLocal_members others members)
  | .index array position => .index (isLocal others array) (isLocal others position)
  | .call source ⟨_, _, _, arguments⟩ =>
      .call others (isLocal others source) (isLocal_arguments others arguments)
  | .lambda _ _ => ⟨fun _ => rfl, nofun⟩

theorem isLocal_members (others : other?.Local) :
    (members : List (String × Expr)) → MembersLocal engine registry other? members
  | [] => ⟨fun _ => rfl, by rintro scope _ ⟨⟩; nofun⟩
  | (name, e) :: rest => {
      congr := fun agree => by
        rw [memberMeanings?, memberMeanings?, (isLocal others e).congr agree.left,
          (isLocal_members others rest).congr agree.right]
      looksAt := fun hms => by
        obtain ⟨m, hm, hms⟩ := Option.bind_eq_some_iff.mp hms
        obtain ⟨more, hmore, hms⟩ := Option.bind_eq_some_iff.mp hms
        obtain rfl := Option.some.inj hms
        rintro _ hmem
        rcases List.mem_cons.mp hmem with rfl | hmem
        · exact ((isLocal others e).looksAt hm).mono fun _ => List.mem_append_left _
        · exact ((isLocal_members others rest).looksAt hmore _ hmem).mono
            fun _ => List.mem_append_right _ }

theorem isLocal_body (others : other?.Local) : (e : Expr) → ∀ parameter body,
    e = .lambda [parameter] body → body.Local engine registry other?
  | .lambda parameters body => by
      rintro parameter body' ⟨⟩
      exact isLocal others body
  | .const _ _ | .param _ | .member _ _ | .unary _ _ | .binary _ _ _ | .cond _ _ _ | .new _
  | .index _ _ | .call _ _ => nofun

theorem isLocal_arguments (others : other?.Local) : (arguments : List Expr) →
    ∀ e ∈ arguments, e.Local engine registry other? ∧
      ∀ parameter body, e = .lambda [parameter] body → body.Local engine registry other?
  | [] => nofun
  | e :: rest => List.forall_mem_cons.mpr
      ⟨⟨isLocal others e, isLocal_body others e⟩, isLocal_arguments others rest⟩
end

end Expr

end QueryPipeline
