import Bronze.Json.Validity

/-!
# `JSON.stringify` and `json::parse`

A tree of plain data in the runtime is written as JSON text whose tree is the same one: the parser
undoes the serializer.

## Main results

* `Represents.unique`: a value holds one tree
* `serializeProperty_tree`: a represented tree is written, and spells itself
-/

namespace Bronze.Json

open List Nat

/-- Null, booleans, numbers, strings, arrays, and objects with their members in own-key order. -/
inductive Tree where
  | null
  | bool (b : Bool)
  | number (x : Number)
  | string (text : Units)
  | array (elements : List Tree)
  | object (members : List (Units × Tree))

mutual

/-- How deep arrays and objects nest. -/
def Tree.depth : Tree → Nat
  | .array elements => depthElements elements + 1
  | .object members => depthMembers members + 1
  | _ => 0

def depthElements : List Tree → Nat
  | [] => 0
  | t :: elements => max t.depth (depthElements elements)

def depthMembers : List (Units × Tree) → Nat
  | [] => 0
  | (_, t) :: members => max t.depth (depthMembers members)

end

mutual

/-- The data a parsed value is: `json::Value` holds the number its literal is read as. -/
def Value.tree : Value → Tree
  | .null => .null
  | .bool b => .bool b
  | .number literal => .number (strtod literal)
  | .string text => .string text
  | .array elements => .array (treeElements elements)
  | .object members => .object (treeMembers members)

def treeElements : List Value → List Tree
  | [] => []
  | v :: elements => v.tree :: treeElements elements

def treeMembers : List (Units × Value) → List (Units × Tree)
  | [] => []
  | (key, v) :: members => (key, v.tree) :: treeMembers members

end

theorem depth_lt_of_mem {t : Tree} {elements : List Tree} (h : t ∈ elements) :
    t.depth < (Tree.array elements).depth := by
  rw [Tree.depth, Nat.lt_succ_iff]
  induction elements with
  | nil => cases h
  | cons t' elements ih =>
    rcases mem_cons.mp h with rfl | h
    · exact Nat.le_max_left ..
    · exact Nat.le_trans (ih h) (Nat.le_max_right ..)

theorem depth_lt_of_mem_members {m : Units × Tree} {members : List (Units × Tree)}
    (h : m ∈ members) : m.2.depth < (Tree.object members).depth := by
  rw [Tree.depth, Nat.lt_succ_iff]
  induction members with
  | nil => cases h
  | cons m' members ih =>
    rcases mem_cons.mp h with rfl | h
    · exact Nat.le_max_left ..
    · exact Nat.le_trans (ih h) (Nat.le_max_right ..)

/-- JSON text whose value is the tree. -/
def SpellsTree (text : Units) (t : Tree) : Prop :=
  ∃ v, JSONText text v ∧ v.tree = t ∧ v.nesting = t.depth

section Spelling

variable {indent stepback : Units} (hindent : Whitespace indent) (hstepback : Whitespace stepback)
include hindent hstepback

theorem spellsTree_array (gap : Units) {parts : List Units} {elements : List Tree}
    (h : Forall₂ SpellsTree parts elements) :
    SpellsTree (joinPartial parts indent stepback gap (unit '[') (unit ']')) (.array elements) := by
  obtain ⟨vs, hvs, htree, hdepth⟩ : ∃ vs, Forall₂ JSONText parts vs ∧
      treeElements vs = elements ∧ nestingElements vs = depthElements elements := by
    induction h with
    | nil => exact ⟨[], .nil, rfl, rfl⟩
    | cons hpart _ ih =>
      obtain ⟨v, hv, rfl, hnest⟩ := hpart
      obtain ⟨vs, hvs, rfl, hdepth⟩ := ih
      exact ⟨v :: vs, .cons hv hvs, rfl, by rw [nestingElements, depthElements, hnest, hdepth]⟩
  exact ⟨_, array_json hindent hstepback gap hvs, congrArg Tree.array htree,
    congrArg (· + 1) hdepth⟩

theorem spellsTree_object (gap : Units) {entries : List (Units × Units)}
    {members : List (Units × Tree)}
    (h : Forall₂ (fun e m => e.1 = m.1 ∧ SpellsTree e.2 m.2) entries members) :
    SpellsTree (joinPartial (entries.map fun e => memberText gap e.1 e.2) indent stepback gap
      (unit '{') (unit '}')) (.object members) := by
  obtain ⟨ms, hms, htree, hdepth⟩ : ∃ ms : List (Units × Value),
      Forall₂ (fun e m => e.1 = m.1 ∧ JSONText e.2 m.2) entries ms ∧
        treeMembers ms = members ∧ nestingMembers ms = depthMembers members := by
    induction h with
    | nil => exact ⟨[], .nil, rfl, rfl⟩
    | @cons e m entries members hentry _ ih =>
      obtain ⟨key, t⟩ := m
      obtain ⟨rfl, v, hv, rfl, hnest⟩ := hentry
      obtain ⟨ms, hms, rfl, hdepth⟩ := ih
      exact ⟨(e.1, v) :: ms, .cons ⟨rfl, hv⟩ hms, rfl,
        by rw [nestingMembers, depthMembers, hnest, hdepth]⟩
  exact ⟨_, object_json hindent hstepback gap hms, congrArg Tree.object htree,
    congrArg (· + 1) hdepth⟩

end Spelling

/-- **What spells a tree parses back to it**, when it nests at most 512 deep. -/
theorem SpellsTree.parse {text : Units} {t : Tree} (h : SpellsTree text t)
    (hdepth : t.depth ≤ 512) : ∃ v, parse text = .ok (some v, "") ∧ v.tree = t := by
  obtain ⟨v, hv, htree, hnest⟩ := h
  obtain ⟨value, error, hparse, hiff, -, herror⟩ := parse_iff text
  obtain rfl : value = some v := (hiff v).mpr ⟨hv, by omega⟩
  have : error = "" := by
    by_contra hne
    exact absurd (herror.mpr hne) (by simp)
  exact ⟨v, by rw [hparse, this], htree⟩

/-! ## Data in the runtime -/

section Represents

variable {W O : Type} (rt : Runtime W O) (S : W → Prop)

/-- In the states `S` a computation answers `a`, and the state stays in `S`. -/
def Answers {α : Type} (x : Run W O α) (a : α) : Prop :=
  ∀ w, S w → ∃ w', x w = .done a w' ∧ S w'

/-- An object with nothing of its own that the serializer would consult. -/
structure DataObject (o : O) : Prop where
  toJson : ∃ f, Answers S (rt.elemGet (.object o) (units "toJSON")) f ∧
    ∀ w, S w → isCallable rt w f = false
  callable : ∀ w, S w → rt.callable w o = false
  unwrapped : ∀ w, S w → unwrap rt w (.object o) = .object o

mutual

/-- A value that is a tree of plain data, as long as the state stays in `S`. -/
def Represents : JsValue O → Tree → Prop
  | v, .null => v = .null
  | v, .bool b => v = .bool b
  -- a finite number, and not `-0`
  | v, .number x => v = .number x ∧
    ∃ negative magnitude, x = .finite negative magnitude ∧ (magnitude.value = 0 → negative = false)
  | v, .string text => v = .string text
  | v, .array elements => ∃ o, v = .object o ∧ DataObject rt S o ∧
    (∀ w, S w → rt.kind w o = .array elements.length) ∧ RepresentsElements o 0 elements
  | v, .object members => ∃ o, v = .object o ∧ DataObject rt S o ∧
    (∀ w, S w → rt.kind w o = .plain ∧ rawJson rt w o = none) ∧
    Answers S (rt.objectKeys (.object o)) (members.map Prod.fst) ∧ RepresentsMembers o members

def RepresentsElements (o : O) : Nat → List Tree → Prop
  | _, [] => True
  | i, t :: elements =>
    (∃ v, Answers S (rt.elemGet (.object o) (units (toString i))) v ∧ Represents v t) ∧
      RepresentsElements o (i + 1) elements

def RepresentsMembers (o : O) : List (Units × Tree) → Prop
  | [] => True
  | (key, t) :: members =>
    (∃ v, Answers S (rt.elemGet (.object o) key) v ∧ Represents v t) ∧ RepresentsMembers o members

end

end Represents

section Facts

variable {W O : Type} {rt : Runtime W O} {S : W → Prop} {α : Type}

theorem Answers.pure (a : α) : Answers S (Pure.pure a : Run W O α) a :=
  fun w hw => ⟨w, rfl, hw⟩

theorem Answers.bind {α β : Type} {x : Run W O α} {f : α → Run W O β} {a : α} {b : β}
    (hx : Answers S x a) (hf : Answers S (f a) b) : Answers S (x >>= f) b := by
  intro w hw
  obtain ⟨w₁, hxw, hw₁⟩ := hx w hw
  obtain ⟨w₂, hfw, hw₂⟩ := hf w₁ hw₁
  exact ⟨w₂, by rw [Run.bind_apply, hxw]; exact hfw, hw₂⟩

theorem Answers.read {f : W → α} {a : α} (h : ∀ w, S w → f w = a) :
    Answers S (Run.read f : Run W O α) a :=
  fun w hw => ⟨w, by rw [Run.read, h w hw], hw⟩

theorem Answers.unique {x : Run W O α} {a b : α} {w : W} (hw : S w)
    (ha : Answers S x a) (hb : Answers S x b) : a = b := by
  obtain ⟨w₁, h₁, -⟩ := ha w hw
  obtain ⟨w₂, h₂, -⟩ := hb w hw
  rw [h₁] at h₂
  cases h₂
  rfl

section Unique

variable {w : W} (hw : S w)
include hw

theorem RepresentsElements.unique {o : O} {elements elements' : List Tree}
    (ih : ∀ t ∈ elements, ∀ t' v, Represents rt S v t → Represents rt S v t' → t = t')
    (hlen : elements.length = elements'.length) (i : Nat) (h : RepresentsElements rt S o i elements)
    (h' : RepresentsElements rt S o i elements') : elements = elements' := by
  induction elements generalizing i elements' with
  | nil => exact (length_eq_zero_iff.mp hlen.symm).symm
  | cons t elements hi =>
    cases elements' with
    | nil => cases hlen
    | cons t' elements' =>
      obtain ⟨⟨v, hv, ht⟩, hrest⟩ := h
      obtain ⟨⟨v', hv', ht'⟩, hrest'⟩ := h'
      obtain rfl := hv.unique hw hv'
      have hhead := ih t (by simp) t' v ht ht'
      have htail := hi (fun u hu => ih u (by simp [hu])) (by simpa using hlen) (i + 1) hrest hrest'
      rw [hhead, htail]

theorem RepresentsMembers.unique {o : O} {members members' : List (Units × Tree)}
    (ih : ∀ m ∈ members, ∀ t' v, Represents rt S v m.2 → Represents rt S v t' → m.2 = t')
    (hkeys : members.map Prod.fst = members'.map Prod.fst) (h : RepresentsMembers rt S o members)
    (h' : RepresentsMembers rt S o members') : members = members' := by
  induction members generalizing members' with
  | nil => exact (map_eq_nil_iff.mp hkeys.symm).symm
  | cons m members hi =>
    cases members' with
    | nil => cases hkeys
    | cons m' members' =>
      obtain ⟨key, t⟩ := m
      obtain ⟨key', t'⟩ := m'
      simp only [map_cons, cons.injEq] at hkeys
      obtain ⟨rfl, hkeys⟩ := hkeys
      obtain ⟨⟨v, hv, ht⟩, hrest⟩ := h
      obtain ⟨⟨v', hv', ht'⟩, hrest'⟩ := h'
      obtain rfl := hv.unique hw hv'
      have hhead := ih (key, t) (by simp) t' v ht ht'
      have htail := hi (fun u hu => ih u (by simp [hu])) hkeys hrest hrest'
      rw [htail, ← hhead]

/-- **A value holds one tree.** By induction on the depth. -/
theorem Represents.unique {t t' : Tree} {v : JsValue O} (h : Represents rt S v t)
    (h' : Represents rt S v t') : t = t' := by
  induction hn : t.depth using Nat.strong_induction_on generalizing t t' v with
  | _ n ih =>
    subst hn
    cases t with
    | null | bool | number | string =>
      cases t' <;> simp_all [Represents]
    | array elements =>
      obtain ⟨o, rfl, -, hkind, hrep⟩ := h
      cases t' with
      | null | bool | number | string => simp [Represents] at h'
      | array elements' =>
        obtain ⟨o', ho, -, hkind', hrep'⟩ := h'
        cases ho
        have hlen : elements.length = elements'.length :=
          Kind.array.inj ((hkind w hw).symm.trans (hkind' w hw))
        have hsame := RepresentsElements.unique hw
          (fun u hu t' v hu₁ hu₂ => ih _ (depth_lt_of_mem hu) hu₁ hu₂ rfl) hlen 0 hrep hrep'
        simp [hsame]
      | object members' =>
        obtain ⟨o', ho, -, hkind', -⟩ := h'
        cases ho
        cases (hkind w hw).symm.trans (hkind' w hw).1
    | object members =>
      obtain ⟨o, rfl, -, hkind, hkeys, hrep⟩ := h
      cases t' with
      | null | bool | number | string => simp [Represents] at h'
      | array elements' =>
        obtain ⟨o', ho, -, hkind', -⟩ := h'
        cases ho
        cases (hkind w hw).1.symm.trans (hkind' w hw)
      | object members' =>
        obtain ⟨o', ho, -, -, hkeys', hrep'⟩ := h'
        cases ho
        have hsame := RepresentsMembers.unique hw
          (fun m hm t' v hm₁ hm₂ => ih _ (depth_lt_of_mem_members hm) hm₁ hm₂ rfl)
          (hkeys.unique hw hkeys') hrep hrep'
        simp [hsame]

end Unique

/-! ## The walk over the data -/

section Walk

variable [DecidableEq O] {state : State O} {serialize : Serializer W O} {w : W} (hw : S w)

/-- No object on the stack is the one whose tree is serialized: each holds a deeper tree. -/
def Above (rt : Runtime W O) (S : W → Prop) (stack : List O) (t : Tree) : Prop :=
  ∀ o ∈ stack, ∀ t', Represents rt S (.object o) t' → t.depth < t'.depth

/-- A serializer that writes every tree of less than a depth, wherever it is read. -/
def WritesTree (rt : Runtime W O) (S : W → Prop) (n : Nat) (serialize : Serializer W O) : Prop :=
  ∀ t v indent stack key holder, t.depth < n → Whitespace indent →
    Answers S (rt.elemGet holder key) v → Represents rt S v t → Above rt S stack t →
    ∃ out, Answers S (serialize indent stack key holder) (some out) ∧ SpellsTree out t

omit [DecidableEq O] in
theorem Above.not_mem {o : O} {stack : List O} {t : Tree} (h : Above rt S stack t)
    (ht : Represents rt S (.object o) t) : o ∉ stack := by
  intro ho
  exact absurd (h o ho t ht) (lt_irrefl _)

include hw in
omit [DecidableEq O] in
theorem Above.cons {o : O} {stack : List O} {t u : Tree} (h : Above rt S stack t)
    (ht : Represents rt S (.object o) t) (hu : u.depth < t.depth) : Above rt S (o :: stack) u := by
  intro o' ho' t' ht'
  rcases mem_cons.mp ho' with rfl | ho'
  · rwa [Represents.unique hw ht' ht]
  · exact lt_trans hu (h o' ho' t' ht')

section Containers

variable {n : Nat} {indent : Units} {stack : List O} {o : O}
  (hwrites : WritesTree rt S n serialize) (hgap : Whitespace state.gap)
  (hindent : Whitespace indent)
include hw hwrites hgap hindent

omit [DecidableEq O] hw in
theorem elements_walk {elements : List Tree} (hdepth : ∀ t ∈ elements, t.depth < n)
    (habove : ∀ t ∈ elements, Above rt S (o :: stack) t) (i : Nat)
    (hrep : RepresentsElements rt S o i elements) :
    ∃ parts, Answers S ((range' i elements.length).mapM fun i => do
        let element ← serialize (indent ++ state.gap) (o :: stack) (units (toString i)) (.object o)
        return element.getD (units "null")) parts ∧
      Forall₂ SpellsTree parts elements := by
  induction elements generalizing i with
  | nil => exact ⟨[], Answers.pure [], .nil⟩
  | cons t elements ih =>
    rw [RepresentsElements] at hrep
    obtain ⟨⟨v, hget, ht⟩, hrest⟩ := hrep
    obtain ⟨out, hout, hspells⟩ := hwrites t v (indent ++ state.gap) (o :: stack) _ _
      (hdepth t (by simp)) (hindent.append hgap) hget ht (habove t (by simp))
    obtain ⟨parts, hparts, hall⟩ := ih (fun u hu => hdepth u (by simp [hu]))
      (fun u hu => habove u (by simp [hu])) (i + 1) hrest
    refine ⟨out :: parts, ?_, .cons hspells hall⟩
    rw [length_cons, range'_succ, mapM_cons]
    refine Answers.bind (a := out) (hout.bind (Answers.pure _)) ?_
    exact hparts.bind (Answers.pure _)

variable {members : List (Units × Tree)}

omit [DecidableEq O] hw in
theorem members_walk (hdepth : ∀ m ∈ members, m.2.depth < n)
    (habove : ∀ m ∈ members, Above rt S (o :: stack) m.2)
    (hrep : RepresentsMembers rt S o members) :
    ∃ entries : List (Units × Units), Answers S ((members.map Prod.fst).mapM fun key => do
        let serialized ← serialize (indent ++ state.gap) (o :: stack) key (.object o)
        return serialized.map (memberText state.gap key))
          (entries.map fun e => some (memberText state.gap e.1 e.2)) ∧
      Forall₂ (fun e m => e.1 = m.1 ∧ SpellsTree e.2 m.2) entries members := by
  induction members with
  | nil => exact ⟨[], Answers.pure [], .nil⟩
  | cons m members ih =>
    obtain ⟨key, t⟩ := m
    rw [RepresentsMembers] at hrep
    obtain ⟨⟨v, hget, ht⟩, hrest⟩ := hrep
    obtain ⟨out, hout, hspells⟩ := hwrites t v (indent ++ state.gap) (o :: stack) _ _
      (hdepth (key, t) (by simp)) (hindent.append hgap) hget ht (habove (key, t) (by simp))
    obtain ⟨entries, hentries, hall⟩ := ih (fun u hu => hdepth u (by simp [hu]))
      (fun u hu => habove u (by simp [hu])) hrest
    refine ⟨(key, out) :: entries, ?_, .cons ⟨rfl, hspells⟩ hall⟩
    rw [map_cons, mapM_cons]
    refine Answers.bind (a := some (memberText state.gap key out)) (hout.bind (Answers.pure _)) ?_
    exact hentries.bind (Answers.pure _)

theorem serializeArray_tree {elements : List Tree} (hdepth : (Tree.array elements).depth ≤ n)
    (ht : Represents rt S (.object o) (.array elements))
    (habove : Above rt S stack (.array elements)) :
    ∃ out, Answers S (serializeArray state serialize indent stack o elements.length) (some out) ∧
      SpellsTree out (.array elements) := by
  have hrep := ht
  obtain ⟨o', ho, -, -, hrep⟩ := hrep
  cases ho
  obtain ⟨parts, hparts, hall⟩ := elements_walk hwrites hgap hindent
    (fun t hmem => lt_of_lt_of_le (depth_lt_of_mem hmem) hdepth)
    (fun t hmem => habove.cons hw ht (depth_lt_of_mem hmem)) 0 hrep
  refine ⟨_, ?_, spellsTree_array (hindent.append hgap) hindent state.gap hall⟩
  rw [serializeArray, if_neg (habove.not_mem ht), range_eq_range']
  exact hparts.bind (Answers.pure _)

theorem serializeObject_tree (hlist : state.propertyList = none)
    (hdepth : (Tree.object members).depth ≤ n) (ht : Represents rt S (.object o) (.object members))
    (habove : Above rt S stack (.object members)) :
    ∃ out, Answers S (serializeObject rt state serialize indent stack o) (some out) ∧
      SpellsTree out (.object members) := by
  have hrep := ht
  obtain ⟨o', ho, -, -, hkeys, hrep⟩ := hrep
  cases ho
  obtain ⟨entries, hentries, hall⟩ := members_walk hwrites hgap hindent
    (fun m hmem => lt_of_lt_of_le (depth_lt_of_mem_members hmem) hdepth)
    (fun m hmem => habove.cons hw ht (depth_lt_of_mem_members hmem)) hrep
  refine ⟨_, ?_, spellsTree_object (hindent.append hgap) hindent state.gap hall⟩
  -- every member was written
  have hparts : (entries.map fun e => some (memberText state.gap e.1 e.2)).filterMap id =
      entries.map fun e => memberText state.gap e.1 e.2 := by
    simp [filterMap_map]
  rw [serializeObject, if_neg (habove.not_mem ht), memberKeys, hlist]
  refine hkeys.bind ?_
  rw [← hparts]
  exact hentries.bind (Answers.pure _)

end Containers

variable {out : Option Units} {stack : List O} {indent : Units}

/-- Nothing is consulted about the value that was read: it is the one that is serialized. -/
theorem serializeProperty_answers {fuel : Nat} {key : Units}
    {holder v : JsValue O} (hreplacer : state.replacer = none)
    (hget : Answers S (rt.elemGet holder key) v) (htoJson : Answers S (consultToJson rt key v) v)
    (hunwrap : ∀ w, S w → unwrap rt w v = v) (hvalue : Answers S
      (serializeValue rt state (serializeProperty rt state fuel) fuel indent stack v) out) :
    Answers S (serializeProperty rt state (fuel + 1) indent stack key holder) out := by
  have hconsult : Answers S (consultReplacer rt state key holder v) v := by
    rw [consultReplacer, hreplacer]
    exact Answers.pure v
  exact hget.bind (htoJson.bind (hconsult.bind ((Answers.read hunwrap).bind hvalue)))

omit [DecidableEq O] in
/-- A plain data object has no `toJSON` that would be called. -/
theorem DataObject.consultToJson {o : O} (h : DataObject rt S o) (key : Units) :
    Answers S (consultToJson rt key (.object o)) (.object o) := by
  obtain ⟨f, hf, hcallable⟩ := h.toJson
  rw [Json.consultToJson]
  refine hf.bind ((Answers.read hcallable).bind ?_)
  rw [if_neg (by simp)]
  exact Answers.pure _

theorem DataObject.serializeValue {o : O} (h : DataObject rt S o) {fuel : Nat}
    (hvalue : Answers S (serializeObjectValue rt state serialize fuel indent stack o) out) :
    Answers S (serializeValue rt state serialize fuel indent stack (.object o)) out := by
  refine (Answers.read h.callable).bind ?_
  rwa [if_neg (by simp)]

/-- **A represented tree is written, and its text spells it.** By induction on the fuel. -/
theorem serializeProperty_tree (hw : S w) (hgap : Whitespace state.gap)
    (hreplacer : state.replacer = none) (hlist : state.propertyList = none) (fuel : Nat) :
    WritesTree rt S fuel (serializeProperty rt state fuel) := by
  induction fuel with
  | zero => exact fun t _ _ _ _ _ h => absurd h (not_lt_zero _)
  | succ fuel ih =>
    intro t v indent stack key holder hdepth hindent hget ht habove
    rw [Nat.lt_succ_iff] at hdepth
    have hrep := ht
    cases t with
    | null =>
      subst hrep
      exact ⟨_, serializeProperty_answers hreplacer hget (Answers.pure _) (fun _ _ => rfl)
        (Answers.pure _), _, literal_json .null, rfl, rfl⟩
    | bool b =>
      subst hrep
      refine ⟨_, serializeProperty_answers hreplacer hget (Answers.pure _) (fun _ _ => rfl)
        (Answers.pure _), .bool b, ?_, rfl, rfl⟩
      cases b
      · exact literal_json .false
      · exact literal_json .true
    | number x =>
      obtain ⟨rfl, negative, magnitude, rfl, hzero⟩ := hrep
      exact ⟨_, serializeProperty_answers hreplacer hget (Answers.pure _) (fun _ _ => rfl)
        (Answers.pure _), _, literal_json (.number (formatJsNumber_json negative magnitude)),
        congrArg Tree.number (strtod_formatJsNumber hzero), rfl⟩
    | string text =>
      subst hrep
      exact ⟨_, serializeProperty_answers hreplacer hget (Answers.pure _) (fun _ _ => rfl)
        (Answers.pure _), _, literal_json (.string (quoteJsonString_json text)), rfl, rfl⟩
    | array elements =>
      obtain ⟨o, rfl, hdata, hkind, -⟩ := hrep
      obtain ⟨out, hout, hspells⟩ :=
        serializeArray_tree hw ih hgap hindent hdepth ht habove
      refine ⟨out, serializeProperty_answers hreplacer hget (hdata.consultToJson key)
        hdata.unwrapped (hdata.serializeValue ?_), hspells⟩
      exact (Answers.read hkind).bind hout
    | object members =>
      obtain ⟨o, rfl, hdata, hkind, -⟩ := hrep
      obtain ⟨out, hout, hspells⟩ :=
        serializeObject_tree hw ih hgap hindent hlist hdepth ht habove
      refine ⟨out, serializeProperty_answers hreplacer hget (hdata.consultToJson key)
        hdata.unwrapped (hdata.serializeValue ?_), hspells⟩
      exact (Answers.read fun w hw => (hkind w hw).1).bind
        ((Answers.read fun w hw => (hkind w hw).2).bind hout)

end Walk

/-- **The parser undoes the serializer.** Data that nests at most 512 deep is written, and its text
parses back to it, its members in the order of the own keys. -/
theorem stringify_parses_back [DecidableEq O] {w : W} (hw : S w) {space : JsValue O}
    (hgap : Whitespace (gapOf rt w space)) {v : JsValue O} {t : Tree} (ht : Represents rt S v t)
    (hdepth : t.depth ≤ 512) (hwrapper : ∃ wrapper, Answers S (rt.createWrapper v) wrapper ∧
      Answers S (rt.elemGet wrapper []) v) {fuel : Nat} (hfuel : t.depth < fuel) :
    ∃ out w' tree, rtJsonStringify rt fuel v .undefined space w = .done (.string out) w' ∧
      parse out = .ok (some tree, "") ∧ tree.tree = t := by
  obtain ⟨wrapper, hcreate, hget⟩ := hwrapper
  -- nothing stands above the root
  have habove : Above rt S [] t := by simp [Above]
  generalize hstate : stateOf rt w .undefined space = state
  have hgap' : Whitespace state.gap := by
    rw [← hstate]
    exact hgap
  have hreplacer : state.replacer = none := by simp [← hstate, stateOf, isCallable]
  have hlist : state.propertyList = none := by simp [← hstate, stateOf]
  obtain ⟨out, hout, hspells⟩ := serializeProperty_tree hw hgap' hreplacer hlist fuel t v [] [] []
    wrapper hfuel whitespace_nil hget ht habove
  have hrun : Answers S (rt.createWrapper v >>= fun wrapper =>
      serializeProperty rt state fuel [] [] [] wrapper >>= fun out =>
        pure ((out.map JsValue.string).getD .undefined)) (JsValue.string out : JsValue O) := by
    refine hcreate.bind (hout.bind ?_)
    exact Answers.pure _
  obtain ⟨w', hrun, -⟩ := hrun w hw
  obtain ⟨tree, hparse, htree⟩ := hspells.parse hdepth
  refine ⟨out, w', tree, ?_, hparse, htree⟩
  rw [← hrun, ← hstate]
  rfl

end Facts

/-- **`JSON.stringify` writes JSON that parses back.** A string it returns is JSON text when the gap
is JSON whitespace and every object tagged as raw JSON carries a text that `JSON.rawJSON` took; it
is well-formed UTF-16 when the gap and those texts are. Data that nests at most 512 deep is
written, and parses back to the same data with its members in own-key order. -/
theorem rtJsonStringify_json {W O : Type} [DecidableEq O] (rt : Runtime W O) :
    (∀ fuel value replacer space w w' out,
      rtJsonStringify rt fuel value replacer space w = .done (.string out) w' →
      (Whitespace (gapOf rt w space) →
        (∀ w o raw, rawJson rt w o = some raw → jsonRawJSON raw = .ok (.ok raw)) →
          ∃ v, JSONText out v) ∧
      (WellFormed (gapOf rt w space) → (∀ w o raw, rawJson rt w o = some raw → WellFormed raw) →
          WellFormed out)) ∧
    (∀ (S : W → Prop) w space v t fuel, S w → Whitespace (gapOf rt w space) →
      Represents rt S v t → t.depth ≤ 512 →
      (∃ wrapper, Answers S (rt.createWrapper v) wrapper ∧ Answers S (rt.elemGet wrapper []) v) →
      t.depth < fuel →
        ∃ out w' tree, rtJsonStringify rt fuel v .undefined space w = .done (.string out) w' ∧
          parse out = .ok (some tree, "") ∧ tree.tree = t) := by
  refine ⟨fun fuel value replacer space w w' out hrun => ⟨fun hgap hraw => ?_, fun hgap hraw => ?_⟩,
    fun S w space v t fuel hw hgap ht hdepth hwrapper hfuel => ?_⟩
  · exact rtJsonStringify_texts (isJson_texts hgap) whitespace_nil
      (fun w o raw h => (jsonRawJSON_json (hraw w o raw h)).2) hrun
  · exact rtJsonStringify_texts (wellFormed_texts hgap) .nil hraw hrun
  · exact stringify_parses_back hw hgap ht hdepth hwrapper hfuel

/-- The objects of a program with `{"a": ["\ud800"]}`. -/
inductive Place
  | wrapper
  | document
  | list
  deriving DecidableEq

/-- The state is the value the wrapper holds. -/
def smallHeap : Runtime (JsValue Place) Place where
  elemGet holder key := match holder with
    | .object .wrapper => fun w => .done (if key = [] then w else .undefined) w
    | .object .document => pure (if key = units "a" then .object .list else .undefined)
    | .object .list => pure (if key = units "0" then .string [0xD800] else .undefined)
    | _ => pure .undefined
  dynamicCall _ _ _ := pure .undefined
  objectKeys
    | .object .wrapper => pure [[]]
    | .object .document => pure [units "a"]
    | .object .list => pure [units "0"]
    | _ => pure []
  toNumber _ := pure .nan
  createWrapper v := fun _ => .done (.object .wrapper) v
  kind _ o := match o with
    | .list => .array 1
    | _ => .plain
  callable _ _ := false
  wrapperPrimitive _ _ := none
  bigIntWrapperData _ _ := none
  prototypeIsNull _ _ := false
  ownSlot _ _ _ := none
  arrayElement _ _ _ := .undefined

theorem represents_document :
    Represents smallHeap (· = .object .document) (.object .document)
      (.object [(units "a", .array [.string [0xD800]])]) := by
  have hdata (o : Place) (hget : ∀ w, w = .object .document →
      smallHeap.elemGet (.object o) (units "toJSON") w = .done .undefined w) :
      DataObject smallHeap (· = .object .document) o :=
    ⟨⟨.undefined, fun w hw => ⟨w, hget w hw, hw⟩, fun _ _ => rfl⟩, fun _ _ => rfl, fun _ _ => rfl⟩
  have hlist : Represents smallHeap (· = .object .document) (.object .list)
      (.array [.string [0xD800]]) := by
    simp only [Represents, RepresentsElements, and_true]
    refine ⟨.list, rfl, hdata .list fun w _ => rfl, fun _ _ => rfl, .string [0xD800], ?_, rfl⟩
    exact fun w hw => ⟨w, rfl, hw⟩
  refine ⟨.document, rfl, hdata .document fun w _ => rfl, fun _ _ => ⟨rfl, rfl⟩,
    fun w hw => ⟨w, rfl, hw⟩, ?_⟩
  simp only [RepresentsMembers, and_true]
  exact ⟨.object .list, fun w hw => ⟨w, rfl, hw⟩, hlist⟩

/-- `JSON.stringify({"a": ["\ud800"]}, undefined, " ")`, and back. -/
theorem rtJsonStringify_json_document :
    (IsJson (units "\x7b\n \"a\": [\n  \"\\ud800\"\n ]\n\x7d") ∧
      WellFormed (units "\x7b\n \"a\": [\n  \"\\ud800\"\n ]\n\x7d")) ∧
    ∃ out w' tree, rtJsonStringify smallHeap 3 (.object .document) .undefined
        (.string (units " ")) (.object .document) = .done (.string out) w' ∧
      parse out = .ok (some tree, "") ∧
        tree.tree = .object [(units "a", .array [.string [0xD800]])] := by
  have hgap : Whitespace (gapOf smallHeap (.object .document) (.string (units " "))) := by
    have heq : gapOf smallHeap (.object .document) (.string (units " ")) = [unit ' '] := rfl
    simp [heq, Whitespace, isWhitespace]
  have hraw (w : JsValue Place) (o : Place) : rawJson smallHeap w o = none := rfl
  constructor
  · have h := (rtJsonStringify_json smallHeap).1 3 (.object .document) .undefined
      (.string (units " ")) (.object .document) (.object .document) _ rfl
    exact ⟨h.1 hgap (by simp [hraw]), h.2 (.ascii (by decide)) (by simp [hraw])⟩
  · exact (rtJsonStringify_json smallHeap).2 (· = .object .document) (.object .document)
      (.string (units " ")) (.object .document) _ 3 rfl hgap represents_document (by decide)
      ⟨.object .wrapper, fun w _ => ⟨.object .document, rfl, rfl⟩,
        fun w hw => ⟨w, by rw [hw]; rfl, hw⟩⟩
      (by decide)

/-- After an opening bracket there is whitespace, and then a value or the closing bracket. -/
theorem JSONText.after_bracket {r : Units} {v : Value} (h : JSONText (unit '[' :: r) v) :
    ∃ w c u, Whitespace w ∧ r = w ++ c :: u ∧ (Starts c ∨ c = unit ']') := by
  obtain ⟨w₁, s, w₂, hw₁, hs, -, heq⟩ := h
  cases w₁ with
  | cons c w₁ =>
    obtain ⟨rfl, -⟩ := cons.inj heq
    exact absurd (hw₁ _ (mem_cons_self ..)) (by decide)
  | nil =>
    obtain ⟨c, s, rfl, -⟩ := hs.head
    obtain ⟨rfl, rfl⟩ := cons.inj heq
    rcases hs.array_inv with ⟨w, hw, rfl, -⟩ | ⟨t, vs, ht, rfl, -⟩
    · exact ⟨w, _, w₂, hw, by simp, .inr rfl⟩
    · obtain ⟨w, c, u, hw, rfl, hc, -⟩ := ht.split
      exact ⟨w, c, u ++ unit ']' :: w₂, hw, by simp, .inl hc⟩

/-- **A gap that is no whitespace is no JSON**: `JSON.stringify(["\ud800"], undefined, "x")` returns
a string that spells nothing, and that `json::parse` refuses. -/
theorem rtJsonStringify_gap :
    ∃ out w' message, rtJsonStringify smallHeap 3 (.object .list) .undefined (.string (units "x"))
        .undefined = .done (.string out) w' ∧
      parse out = .ok (none, message) ∧ ¬∃ v, JSONText out v := by
  refine ⟨units "[\nx\"\\ud800\"\n]", _, _, rfl, rfl, ?_⟩
  rintro ⟨v, hv⟩
  obtain ⟨w, c, u, hw, heq, hc⟩ := JSONText.after_bracket (r := units "\nx\"\\ud800\"\n]") hv
  have hstart : ¬(Starts (unit '\n') ∨ unit '\n' = unit ']') ∧
      ¬(Starts (unit 'x') ∨ unit 'x' = unit ']') := by
    unfold Starts
    decide
  -- the first unit that is no whitespace is the gap's
  cases w with
  | nil =>
    obtain rfl : unit '\n' = c := (cons.inj heq).1
    exact hstart.1 hc
  | cons c₁ w =>
    have heq := (cons.inj heq).2
    cases w with
    | nil =>
      obtain rfl : unit 'x' = c := (cons.inj heq).1
      exact hstart.2 hc
    | cons c₂ w =>
      obtain rfl : unit 'x' = c₂ := (cons.inj heq).1
      exact absurd (hw (unit 'x') (by simp)) (by decide)

end Bronze.Json
