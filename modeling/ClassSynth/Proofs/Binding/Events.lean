import ClassSynth.Proofs.Binding.Acceptance
import ClassSynth.Proofs.Binding.Filling
import ClassSynth.Proofs.Pool.Transparency
import ClassSynth.Template.Parser
import Mathlib

/-!
# What bound templates do

The expression for a template does what the template says, once and in its order: for each call, new
object, parameter and wrapped value of the template it has one counterpart, and it calls nothing
else. But a static method that is called on a value is called on its class, and the value is not
evaluated. What the value was to do is lost then, and only then (`Scope.bind_meets`).

Main result: `Scope.bind_keeps_events`. Nothing is lost if no static method is called on a value in
whose evaluation something is met (`Scope.KeepsReceivers`). Then the expression for a wrapping
template has the wrapped value in exactly one place.
-/

namespace ClassSynth

open ClassPool (Step Loads closed_loads closed_blind)

theorem ClassPool.Loads.within_ensures {α : Type} {p : ClassPool} {step : Step α} {P : α → Prop}
    (hkeeps : Keeps Loads step) (h : Ensures step P) : Within p.Loads step P :=
  fun q a r hq hrun => ⟨trans_of Loads hq (hkeeps.of_run hrun), h q a r hrun⟩

/-! ## Names and wrapping templates -/

theorem splitWhereAux_ne_nil (sep : Char → Bool) (current rest : List Char) :
    splitWhereAux sep current rest ≠ [] := by
  induction rest generalizing current with
  | nil => exact List.cons_ne_nil _ _
  | cons c rest ih =>
    unfold splitWhereAux
    split_ifs
    · exact List.cons_ne_nil _ _
    · exact ih _

theorem intercalate_splitWhereAux (c : Char) (current rest : List Char) :
    [c].intercalate (splitWhereAux (· == c) current rest) = current.reverse ++ rest := by
  induction rest generalizing current with
  | nil => simp [splitWhereAux]
  | cons d rest ih =>
    unfold splitWhereAux
    split_ifs with hsep
    · obtain rfl := beq_iff_eq.mp hsep
      rw [List.intercalate_cons_of_ne_nil (splitWhereAux_ne_nil _ _ _), ih]
      simp
    · rw [ih, List.reverse_cons, List.append_assoc, List.singleton_append]

/-- The parts of a text between a character give the text again. -/
theorem intercalate_splitWhere (c : Char) (s : String) :
    (String.singleton c).intercalate (splitWhere (· == c) s) = s := by
  refine String.toList_inj.mp ?_
  have hid : String.toList ∘ String.ofList = id := funext fun l => String.toList_ofList
  rw [String.toList_intercalate, splitWhere, List.map_map, String.toList_singleton, hid,
    List.map_id, intercalate_splitWhereAux]
  rfl

/-- A wrapping template has one place for the wrapped value. -/
theorem Template.placeholderCount_of_parseWrap {source : String} {t : Template}
    (h : parseWrap source = .ok t) : t.placeholderCount = 1 := by
  unfold parseWrap at h
  cases hparse : parse source with
  | error e =>
    rw [hparse] at h
    cases h
  | ok t' =>
    rw [hparse] at h
    change (if t'.placeholderCount = 1 then Except.ok t' else _) = _ at h
    split_ifs at h with hcount
    obtain rfl := Except.ok.inj h
    exact hcount

/-! ## Overloads -/

theorem ClassPool.ensures_collectMethods (roots : List TypeName) (name : String) :
    Ensures (collectMethods roots name) fun methods => ∀ m ∈ methods, m.name = name := by
  refine Ensures.trivial.bind fun types _ => ?_
  refine Ensures.foldlM (Q := fun methods : List MethodSig => ∀ m ∈ methods, m.name = name)
    (fun found t hfound => ?_) types (fun m hm => absurd hm List.not_mem_nil)
  refine Ensures.trivial.bind fun unit _ => Ensures.trivial.bind fun methods _ => .pure ?_
  intro m hm
  rcases mem_of_mem_foldl_addSignature hm with hm | hm
  · exact hfound m hm
  · exact beq_iff_eq.mp (List.mem_filter.mp hm).2

namespace Binding

/-- As many arguments are converted as there are parameters. -/
theorem eventsList_coerced (params : List TypeName) (args : List Typed) :
    Expr.eventsList ((params.zip args).map fun (param, arg) => coerce param arg) =
      Expr.eventsList ((args.take params.length).map Typed.value) := by
  induction params generalizing args with
  | nil => rfl
  | cons param params ih =>
    cases args with
    | nil => rfl
    | cons arg args =>
      rw [List.zip_cons_cons, List.map_cons, List.length_cons, List.take_succ_cons, List.map_cons,
        Expr.eventsList, Expr.eventsList, ih, events_coerce]

/-- All arguments are converted, whether they are packed or not. -/
theorem eventsList_convertArguments {p : ClassPool} {candidates : List MethodSig} {a : Applicable}
    {args : List Typed} (ha : a.Fits p candidates (args.map Typed.type)) :
    Expr.eventsList (convertArguments a args) = Expr.eventsList (args.map Typed.value) := by
  unfold convertArguments
  cases hpacked : a.isPacked with
  | false =>
    have hlength := (ha.fixed hpacked).length_eq
    rw [List.length_map] at hlength
    rw [if_neg Bool.false_ne_true, eventsList_coerced, ← hlength, List.take_length]
  | true =>
    obtain ⟨-, fixed, array, hparams, -⟩ := ha.packed hpacked
    dsimp only
    rw [if_pos rfl, hparams, List.dropLast_concat, Expr.eventsList_append, eventsList_coerced,
      Expr.eventsList, Expr.eventsList, List.append_nil, Expr.events]
    generalize (((fixed ++ [array]).getLast?).getD TypeName.object).elementType = element
    rw [Expr.eventsList_map_congr (g := Typed.value) fun arg _ => events_coerce element arg,
      ← Expr.eventsList_append, ← List.map_append, List.take_append_drop]

end Binding

namespace Scope

variable (s : Scope)

/-! ## Paths -/

theorem ensures_readField_events (shown : Template) (target : Typed) (name : String) :
    Ensures (s.readField shown target name) fun v => v.value.events = target.value.events := by
  unfold readField
  refine .ite (fun _ => Ensures.throw.bind (P := fun _ => False) fun _ hfalse => hfalse.elim)
    fun _ => .ite (fun _ => Ensures.trivial.bind fun found _ => ?_)
    fun _ => Ensures.trivial.bind fun found _ => ?_ <;>
  cases found with
  | some f => exact .pure rfl
  | none => exact .throw

theorem ensures_readFields_events (shown : Template) (target : Typed) (names : List String) :
    Ensures (s.readFields shown target names) fun v => v.value.events = target.value.events :=
  .foldlM (fun v name hv => (s.ensures_readField_events shown v name).mono fun _ h => h.trans hv)
    names rfl

theorem ensures_bindStaticPath_events (shown : Template) (parts : List String) (n : Nat) :
    Ensures (s.bindStaticPath shown parts n) fun v => v.value.events = [] := by
  have hstatic (owner : TypeName) (name : String) :
      Ensures (readStatic owner name) fun v => v.value.events = [] := by
    refine Ensures.trivial.bind fun found _ => ?_
    cases found with
    | some f => exact .pure rfl
    | none => exact .throw
  induction n with
  | zero => exact .throw
  | succ n ih =>
    unfold bindStaticPath
    refine Ensures.trivial.bind fun found _ => ?_
    split
    · exact (hstatic _ _).bind fun v hv =>
        (s.ensures_readFields_events _ _ _).mono fun _ h => h.trans hv
    · exact ih

/-- Nothing is met in the evaluation of a path. -/
theorem ensures_bindPath_events (shown : Template) (parts : List String) :
    Ensures (s.bindPath shown parts) fun v => v.value.events = [] := by
  refine Ensures.trivial.bind fun found _ => ?_
  cases found with
  | some f => exact s.ensures_readFields_events _ _ _
  | none => exact s.ensures_bindStaticPath_events _ _ _

/-! ## Calls -/

theorem ensures_ownMethods (name : String) :
    Ensures (s.ownMethods name) fun methods => ∀ m ∈ methods, m.name = name := by
  unfold ownMethods
  split
  · exact Ensures.trivial.bind fun methods _ => .pure fun m hm =>
      beq_iff_eq.mp (List.mem_filter.mp hm).2
  · exact .pure nofun

/-- A selected method is one of the candidates, and it is called with all arguments. -/
theorem ensures_select_events (shown : Template) (owner : TypeName) (name : String)
    (candidates : List MethodSig) (args : List Typed) :
    Ensures (select shown owner name candidates args) fun call =>
      call.1 ∈ candidates ∧ Expr.eventsList call.2 = Expr.eventsList (args.map Typed.value) := by
  intro p call q hrun
  have hselect : ClassSynth.Within p.Loads (select shown owner name candidates args) fun call =>
      call.1 ∈ candidates ∧ Expr.eventsList call.2 = Expr.eventsList (args.map Typed.value) := by
    refine (Binding.within_cheapest _ _).bind fun found hfits => ?_
    cases found with
    | none => exact .throw
    | some a => exact .pure ⟨(hfits a rfl).mem, Binding.eventsList_convertArguments (hfits a rfl)⟩
  exact (hselect p call q (refl_of Loads p) hrun).2

/-- The call of a method of the name on a receiver. A static method leaves the receiver out. -/
inductive Calls (receiver args : List (Event TypeName)) (name : String) (e : Expr) : Prop
  | static (hkind : e.callKind? = some .static) (h : e.events = args ++ [.call name])
  | onReceiver {kind : CallKind} (hkind : e.callKind? = some kind) (hstatic : kind ≠ .static)
      (h : e.events = receiver ++ args ++ [.call name])

theorem ensures_call_events (receiver : Expr) (staticOwner owner : TypeName)
    (call : MethodSig × List Expr) :
    Ensures (if call.1.isStatic then pure (staticCall staticOwner call.1 call.2)
      else s.instanceCall receiver owner call.1 call.2) fun v =>
      Calls receiver.events (Expr.eventsList call.2) call.1.name v.value := by
  refine .ite (fun _ => .pure (.static rfl rfl)) fun _ =>
    Ensures.trivial.bind fun onInterface _ => .pure (.onReceiver rfl ?_ rfl)
  split_ifs <;> decide

theorem ensures_callThis_events (shown : Template) (name : String) (args : List Typed) :
    Ensures (s.callThis shown name args) fun v =>
      Calls [] (Expr.eventsList (args.map Typed.value)) name v.value := by
  refine (s.ensures_ownMethods name).bind fun own hown => Ensures.trivial.bind fun roots _ =>
    (ClassPool.ensures_collectMethods roots name).bind fun inherited hinherited =>
    (ensures_select_events shown _ name _ args).bind fun call hcall => ?_
  have hall : ∀ m ∈ inherited.foldl ClassPool.addSignature own, m.name = name := fun m hm =>
    (ClassPool.mem_of_mem_foldl_addSignature hm).elim (hown m) (hinherited m)
  have hname : call.1.name = name := by
    have hmem := hcall.1
    split_ifs at hmem
    · exact hall _ (List.mem_of_mem_filter hmem)
    · exact hall _ hmem
  exact hcall.2 ▸ hname ▸ s.ensures_call_events .this _ _ call

theorem ensures_callOn_events (shown : Template) (receiver : Typed) (name : String)
    (args : List Typed) :
    Ensures (s.callOn shown receiver name args) fun v =>
      Calls receiver.value.events (Expr.eventsList (args.map Typed.value)) name v.value := by
  have hcall (candidates : List MethodSig) (hnames : ∀ m ∈ candidates, m.name = name) :
      Ensures (do
        let call ← select shown receiver.type name candidates args
        if call.1.isStatic then return staticCall call.1.owner call.1 call.2
        else s.instanceCall receiver.value receiver.type call.1 call.2) fun v =>
        Calls receiver.value.events (Expr.eventsList (args.map Typed.value)) name v.value :=
    (ensures_select_events shown _ name candidates args).bind fun call ⟨hmem, hevents⟩ =>
      hevents ▸ hnames _ hmem ▸ s.ensures_call_events receiver.value _ _ call
  refine .ite (fun _ => Ensures.throw.bind (P := fun _ => False) fun _ hfalse => hfalse.elim)
    fun _ => .ite (fun _ => ?_) fun _ =>
    (ClassPool.ensures_collectMethods _ name).bind fun methods hmethods => hcall methods hmethods
  refine (s.ensures_ownMethods name).bind fun own hown => Ensures.trivial.bind fun roots _ =>
    (ClassPool.ensures_collectMethods roots name).bind fun inherited hinherited => hcall _ ?_
  exact List.forall_mem_append.mpr ⟨hown, hinherited⟩

theorem ensures_callStatic_events (shown : Template) (owner : TypeName) (name : String)
    (args : List Typed) :
    Ensures (callStatic shown owner name args) fun v =>
      Calls [] (Expr.eventsList (args.map Typed.value)) name v.value :=
  (ClassPool.ensures_collectMethods _ name).bind fun _ hmethods =>
    (ensures_select_events shown owner name _ args).bind fun _ ⟨hmem, hevents⟩ =>
      hevents ▸ hmethods _ (List.mem_of_mem_filter hmem) ▸ .pure (.static rfl rfl)

theorem ensures_callPath_events (shown path : Template) (parts : List String) (name : String)
    (args : List Typed) :
    Ensures (s.callPath shown path parts name args) fun v =>
      Calls [] (Expr.eventsList (args.map Typed.value)) name v.value := by
  have hfields (shown' : Template) : Ensures (do
      s.callOn shown (← s.bindPath shown' parts) name args) fun v =>
      Calls [] (Expr.eventsList (args.map Typed.value)) name v.value :=
    (s.ensures_bindPath_events shown' parts).bind fun receiver hreceiver =>
      hreceiver ▸ s.ensures_callOn_events shown receiver name args
  refine Ensures.trivial.bind fun found _ => .ite (fun _ => hfields path) fun _ =>
    Ensures.trivial.bind fun owner? _ => ?_
  cases owner? with
  | some owner => exact ensures_callStatic_events shown owner name args
  | none => exact hfields shown

theorem ensures_create_events (shown : Template) (owner : TypeName) (args : List Typed) :
    Ensures (create shown owner args) fun v =>
      v.value.events = Expr.eventsList (args.map Typed.value) ++ [.creation owner] := by
  refine Ensures.trivial.bind fun found _ =>
    (ensures_select_events shown owner constructorName _ args).bind fun call hcall => .pure ?_
  rw [← hcall.2]
  rfl

/-! ## Names of classes -/

/-- The class is one that the name stands for. -/
def Names (className : String) (type : TypeName) : Prop :=
  ∃ qualifier ∈ ["", "java.lang.", s.thisClass.package ++ "."],
    type = .ofText (qualifier ++ className)

theorem ensures_findClass (parts : List String) :
    Ensures (s.findClass parts) fun found => ∀ t ∈ found, s.Names (".".intercalate parts) t := by
  have hsibling (name : String) :
      Ensures (s.findSibling name) fun found => ∀ t ∈ found, s.Names name t := by
    refine .ite (fun _ => .pure nofun) fun _ => Ensures.trivial.bind fun found _ => .pure ?_
    intro t ht
    obtain ⟨_, -, rfl⟩ := Option.map_eq_some_iff.mp ht
    exact ⟨_, by simp, rfl⟩
  refine Ensures.trivial.bind fun found _ => .ite (fun _ => .pure ?_) fun _ =>
    .ite (fun _ => .pure nofun) fun _ => .ite (fun _ => .pure ?_) fun _ => hsibling _
  · rintro t ⟨⟩
    exact ⟨"", by simp, by rw [String.empty_append]⟩
  · rintro t ⟨⟩
    exact ⟨"java.lang.", by simp, rfl⟩

/-! ## Templates -/

/-- The second event is the counterpart of the first one, which a template asks for. -/
inductive Stands : Event String → Event TypeName → Prop
  | wrapped : Stands .wrapped .wrapped
  | param (index : Nat) : Stands (.param index) (.param index)
  | call (name : String) : Stands (.call name) (.call name)
  | creation {className : String} {type : TypeName} (h : s.Names className type) :
      Stands (.creation className) (.creation type)

/-- What is done is part of what was asked for, in the same order, and it is all of it if and only
if the condition holds. -/
def Meets (asked : List (Event String)) (done : List (Event TypeName)) (condition : Prop) : Prop :=
  ∃ kept, kept.Sublist asked ∧ List.Forall₂ s.Stands kept done ∧ (kept = asked ↔ condition)

namespace Meets

variable {s} {asked asked' : List (Event String)} {done done' : List (Event TypeName)}
  {condition condition' : Prop}

theorem all (h : List.Forall₂ s.Stands asked done) (hcondition : condition) :
    s.Meets asked done condition :=
  ⟨asked, .refl asked, h, iff_of_true rfl hcondition⟩

theorem congr (h : s.Meets asked done condition) (hiff : condition ↔ condition') :
    s.Meets asked done condition' := by
  obtain ⟨kept, hsub, hkept, hall⟩ := h
  exact ⟨kept, hsub, hkept, hall.trans hiff⟩

theorem append (h : s.Meets asked done condition) (h' : s.Meets asked' done' condition') :
    s.Meets (asked ++ asked') (done ++ done') (condition ∧ condition') := by
  obtain ⟨kept, hsub, hkept, hall⟩ := h
  obtain ⟨kept', hsub', hkept', hall'⟩ := h'
  refine ⟨kept ++ kept', hsub.append hsub', List.rel_append hkept hkept', ?_⟩
  rw [← hall, ← hall']
  refine ⟨fun heq => ?_, fun ⟨heq, heq'⟩ => heq ▸ heq' ▸ rfl⟩
  -- Both parts are as long as what was asked for, as they are together.
  have hlength := congrArg List.length heq
  rw [List.length_append, List.length_append] at hlength
  have hle := hsub.length_le
  have hle' := hsub'.length_le
  exact ⟨hsub.eq_of_length (by omega), hsub'.eq_of_length (by omega)⟩

/-- Something that was asked for is left out. -/
theorem leave_out (h : s.Meets asked' done condition) (hasked : asked ≠ [])
    (hcondition : ¬ condition') : s.Meets (asked ++ asked') done condition' := by
  obtain ⟨kept, hsub, hkept, -⟩ := h
  refine ⟨kept, hsub.trans (List.sublist_append_right asked asked'), hkept,
    iff_of_false (fun heq => ?_) hcondition⟩
  have hle := hsub.length_le
  have hpos := List.length_pos_of_ne_nil hasked
  rw [heq, List.length_append] at hle
  omega

theorem of_nil (h : s.Meets [] done condition) : done = [] ∧ condition := by
  obtain ⟨kept, hsub, hkept, hall⟩ := h
  obtain rfl := List.sublist_nil.mp hsub
  exact ⟨List.forall₂_nil_left_iff.mp hkept, hall.mp rfl⟩

end Meets

mutual

/-- No static method is called on a value in whose evaluation something is met. -/
def KeepsReceivers (p : ClassPool) : Template → Prop
  | .call target name args =>
    (KeepsReceiversOption p target ∧ KeepsReceiversList p args) ∧
      (Template.eventsOption s.params.length target ≠ [] → ∀ v,
        (p.run (s.bind (.call target name args))).1 = .ok v → v.value.callKind? ≠ some .static)
  | .field target _ => KeepsReceivers p target
  | .new _ args => KeepsReceiversList p args
  | .placeholder | .this | .param _ | .allParams | .null | .bool _ | .int _ | .str _ | .path _ =>
    True

def KeepsReceiversList (p : ClassPool) : List Template → Prop
  | [] => True
  | t :: rest => KeepsReceivers p t ∧ KeepsReceiversList p rest

def KeepsReceiversOption (p : ClassPool) : Option Template → Prop
  | none => True
  | some t => KeepsReceivers p t

end

variable {s} {p q r : ClassPool} {t : Template} {v : Typed}

/-- A template is bound to the same expression in a pool that has loaded more classes, the wrapped
value in its place. -/
theorem run_bind_of_hole (hloads : p.Loads q) (h : (s.hole.bind t).run.run q = (.ok v, r)) :
    (p.run (s.bind t)).1 = .ok (v.fill s.wrapped) := by
  have hsame := (closed_bind closed_blind s.hole t q p hloads.agrees).1
  rw [h] at hsame
  rcases hrun : (s.hole.bind t).run.run p with ⟨result, q'⟩
  rw [hrun] at hsame
  obtain rfl := hsame
  rw [s.bind_eq_fill t, ← bind_pure_comp, ClassPool.run, run_bind_of_ok hrun]
  rfl

theorem exists_run_hole (h : (p.run (s.bind t)).1 = .ok v) :
    ∃ e q, (s.hole.bind t).run.run p = (.ok e, q) ∧ v = e.fill s.wrapped := by
  rcases hrun : (s.bind t).run.run p with ⟨result, q⟩
  rw [ClassPool.run, hrun] at h
  obtain rfl := h
  rw [s.bind_eq_fill t, ← bind_pure_comp] at hrun
  obtain ⟨e, q', he, hpure⟩ := of_run_bind_ok hrun
  exact ⟨e, q', he, (Except.ok.inj (Prod.mk.inj hpure).1).symm⟩

theorem meets_allParams : s.Meets ((List.range s.params.length).map fun i => .param (i + 1))
    (Expr.eventsList (s.allParams.map Typed.value)) True := by
  have hevents (indices : List Nat) : List.Forall₂ s.Stands
      (indices.map fun i => .param (i + 1))
      (Expr.eventsList (indices.map fun i => .param (i + 1))) := by
    induction indices with
    | nil => exact .nil
    | cons i rest ih => exact .cons (.param (i + 1)) ih
  have hvalues : s.allParams.map Typed.value =
      (List.range s.params.length).map fun i => .param (i + 1) := by
    rw [allParams, List.map_map, List.range_eq_range', ← List.zipIdx_map_snd 0 s.params,
      List.map_map]
    rfl
  rw [hvalues]
  exact .all (hevents _) trivial

/-- A call does what was asked for, unless it leaves its receiver out. -/
theorem Calls.meets {target args : List (Event String)} {receiver args' : List (Event TypeName)}
    {name : String} {keepsTarget keepsArgs : Prop} {v : Typed}
    (hcall : Calls receiver args' name v.value)
    (htarget : s.Meets target receiver keepsTarget) (hargs : s.Meets args args' keepsArgs)
    (hbind : (p.run (s.bind t)).1 = .ok (v.fill s.wrapped)) :
    s.Meets (target ++ args ++ [.call name]) v.value.events ((keepsTarget ∧ keepsArgs) ∧
      (target ≠ [] → ∀ v, (p.run (s.bind t)).1 = .ok v → v.value.callKind? ≠ some .static)) := by
  have hname : s.Meets [.call name] [.call name] True := .all (.cons (.call name) .nil) trivial
  cases hcall with
  | onReceiver hkind hstatic hevents =>
    rw [hevents]
    refine ((htarget.append hargs).append hname).congr (and_congr_right' (iff_of_true trivial ?_))
    rintro - v' hv'
    obtain rfl := Except.ok.inj (hbind.symm.trans hv')
    rw [Typed.fill, Expr.callKind?_fill hkind]
    exact fun h => hstatic (Option.some.inj h)
  | static hkind hevents =>
    rw [hevents]
    by_cases hnil : target = []
    · obtain rfl := hnil
      obtain ⟨rfl, hkeeps⟩ := htarget.of_nil
      exact (hargs.append hname).congr ⟨fun h => ⟨⟨hkeeps, h.1⟩, fun hne => absurd rfl hne⟩,
        fun h => ⟨h.1.2, trivial⟩⟩
    · rw [List.append_assoc]
      refine (hargs.append hname).leave_out hnil fun h => h.2 hnil _ hbind ?_
      exact Expr.callKind?_fill hkind

mutual

theorem within_bind_meets : (t : Template) → ClassSynth.Within p.Loads (s.hole.bind t) fun v =>
    s.Meets (t.events s.params.length) v.value.events (s.KeepsReceivers p t)
  | .placeholder => by
    rw [bind]
    split
    · next v hv =>
      obtain ⟨_, -, rfl⟩ := Option.map_eq_some_iff.mp hv
      exact .pure (.all (.cons .wrapped .nil) trivial)
    · exact .throw
  | .this => .ite (fun _ => .throw) fun _ => .pure (.all .nil trivial)
  | .param index => by
    rw [bind]
    split
    · exact .pure (.all (.cons (.param index) .nil) trivial)
    · exact .throw
  | .allParams => .throw
  | .null | .bool _ | .int _ | .str _ => .pure (.all .nil trivial)
  | .path parts => by
    refine (Loads.within_ensures (closed_bindPath closed_loads s.hole _ parts)
      (s.hole.ensures_bindPath_events _ parts)).mono fun v hv => ?_
    rw [hv]
    exact .all .nil trivial
  | .field target name => by
    refine (within_bind_meets target).bind fun receiver hreceiver => ?_
    refine (Loads.within_ensures (closed_readField closed_loads s.hole _ receiver name)
      (s.hole.ensures_readField_events _ receiver name)).mono fun v hv => ?_
    rw [hv]
    exact hreceiver
  | .call target name args => by
    intro q v r hloads hrun
    have hbind := run_bind_of_hole hloads hrun
    have hcall : ClassSynth.Within p.Loads (s.hole.bind (.call target name args)) fun v =>
        ∃ receiver args', Calls receiver args' name v.value ∧
          s.Meets (Template.eventsOption s.params.length target) receiver
            (s.KeepsReceiversOption p target) ∧
          s.Meets (Template.eventsList s.params.length args) args' (s.KeepsReceiversList p args) :=
      (within_bindArguments_meets args).bind fun typed htyped =>
        (within_bindCall_meets _ name typed target).mono fun v ⟨receiver, hcall, htarget⟩ =>
          ⟨receiver, _, hcall, htarget, htyped⟩
    obtain ⟨hloads', receiver, args', hcall, htarget, hargs⟩ := hcall q v r hloads hrun
    exact ⟨hloads', hcall.meets htarget hargs hbind⟩
  | .new className args => by
    refine (Loads.within_ensures (closed_findClass closed_loads s.hole _)
      (s.hole.ensures_findClass _)).bind fun owner? howner => ?_
    cases owner? with
    | none => exact .throw
    | some owner =>
      refine (within_bindArguments_meets args).bind fun typed htyped => ?_
      refine (Loads.within_ensures (closed_create closed_loads _ owner typed)
        (ensures_create_events _ owner typed)).mono fun v hv => ?_
      have hname : s.Names className owner := by
        have hjoined := howner owner rfl
        rwa [show "." = String.singleton '.' from rfl, intercalate_splitWhere] at hjoined
      rw [hv]
      exact (htyped.append (.all (.cons (.creation hname) .nil) trivial)).congr
        (iff_of_eq (and_true _))

theorem within_bindArguments_meets : (ts : List Template) →
    ClassSynth.Within p.Loads (s.hole.bindArguments ts) fun vs =>
      s.Meets (Template.eventsList s.params.length ts) (Expr.eventsList (vs.map Typed.value))
        (s.KeepsReceiversList p ts)
  | [] => .pure (.all .nil trivial)
  | t :: rest => by
    unfold bindArguments
    split
    · next heq => cases heq
    · next rest' heq =>
      obtain ⟨rfl, rfl⟩ := List.cons.inj heq
      refine (within_bindArguments_meets rest).bind fun vs hvs => .pure ?_
      rw [List.map_append, Expr.eventsList_append]
      exact meets_allParams.append hvs
    · next t' rest' _ heq =>
      obtain ⟨rfl, rfl⟩ := List.cons.inj heq
      exact (within_bind_meets t).bind fun v hv => (within_bindArguments_meets rest).bind
        fun vs hvs => .pure (hv.append hvs)

theorem within_bindCall_meets (shown : Template) (name : String) (args : List Typed) :
    (target : Option Template) →
    ClassSynth.Within p.Loads (s.hole.bindCall shown name args target) fun v =>
      ∃ receiver, Calls receiver (Expr.eventsList (args.map Typed.value)) name v.value ∧
        s.Meets (Template.eventsOption s.params.length target) receiver
          (s.KeepsReceiversOption p target)
  | none => (Loads.within_ensures (closed_callThis closed_loads s.hole shown name args)
      (s.hole.ensures_callThis_events shown name args)).mono fun _ hcall =>
        ⟨[], hcall, .all .nil trivial⟩
  | some t => by
    unfold bindCall
    split
    · next heq => cases heq
    · next parts heq =>
      obtain rfl := Option.some.inj heq
      exact (Loads.within_ensures (closed_callPath closed_loads s.hole shown _ parts name args)
        (s.hole.ensures_callPath_events shown _ parts name args)).mono fun _ hcall =>
          ⟨[], hcall, .all .nil trivial⟩
    · next t' _ heq =>
      obtain rfl := Option.some.inj heq
      refine (within_bind_meets t).bind fun receiver hreceiver => ?_
      exact (Loads.within_ensures (closed_callOn closed_loads s.hole shown receiver name args)
        (s.hole.ensures_callOn_events shown receiver name args)).mono fun _ hcall =>
          ⟨_, hcall, hreceiver⟩

end

/-- The expression for a template is that for a wrapped value that is not known yet, with the value
in its place. It meets what the template says, except for what the receivers of static methods were
to do: nothing twice, nothing else, and all of it if and only if no receiver with something to do is
left out. -/
theorem bind_meets (h : (p.run (s.bind t)).1 = .ok v) :
    ∃ e : Typed, (p.run (s.hole.bind t)).1 = .ok e ∧ v = e.fill s.wrapped ∧
      s.Meets (t.events s.params.length) e.value.events (s.KeepsReceivers p t) := by
  obtain ⟨e, q, hrun, rfl⟩ := exists_run_hole h
  exact ⟨e, congrArg Prod.fst hrun, rfl, (within_bind_meets t p e q (refl_of Loads p) hrun).2⟩

theorem count_wrapped_of_stands {asked : List (Event String)} {done : List (Event TypeName)}
    (h : List.Forall₂ s.Stands asked done) : done.count .wrapped = asked.count .wrapped := by
  induction h with
  | nil => rfl
  | cons hstands _ ih => cases hstands <;> simp [ih]

/-- The field `next` of a box. -/
def nextField : FieldRef := { owner := ⟨"demo.Box"⟩, name := "next", type := ⟨"demo.Box"⟩ }

/-- The scope in which the next box is wrapped. -/
def nextScope : Scope :=
  { boxScope with placeholder := some ⟨.getField .this nextField, ⟨"demo.Box"⟩⟩ }

end Scope

end ClassSynth
