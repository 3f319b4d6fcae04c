import RubySig.Declaration.Encode
import RubySig.Proofs.Json
import RubySig.Proofs.Name.Printed
import RubySig.Proofs.TypeExpr.Children
import RubySig.Proofs.TypeExpr.Params

/-!
# Types are told apart by their encoding

A name is encoded as it prints, and the parameters of a function are encoded slot by slot.  So a
type is determined by its encoding if its names are read back from their printed form and its
parameters stand in the order of their slots.

* `TypeExpr.Recoverable`, `MethodType.Recoverable`: types and overloads of which this holds.
* `SettledParams.eq_of_rank`: a settled list is determined by its slots.
* `TypeExpr.eq_of_same`, `MethodType.eq_of_same`: two of them with the same encoding are equal.
-/

namespace RubySig

open Json (Same)

/-! ## Leaves -/

theorem TextRange.eq_of_same {r r' : TextRange} (h : Same r.toJson r'.toJson) : r = r' :=
  match h.items with
  | .cons hstart (.cons hstop .nil) => congrArg₂ TextRange.mk hstart.nat_inj hstop.nat_inj

theorem Span.eq_of_same {s s' : Span} (h : Same s.toJson s'.toJson) : s = s' :=
  match h.values ["source", "range"] rfl rfl (by decide) with
  | .cons hsource (.cons hrange .nil) =>
    congrArg₂ Span.mk hsource.nat_inj (TextRange.eq_of_same hrange)

/-- Names that are read back are told apart by their printed form. -/
theorem TypeName.eq_of_same {n n' : TypeName} (hn : n.WellSpelled) (hn' : n'.WellSpelled)
    (h : Same n.toJson n'.toJson) : n = n' := by
  have hrender : n.render = n'.render := h.string_inj
  have hread := hn.parse?_render
  rw [hrender, hn'.parse?_render] at hread
  exact (Option.some.inj hread).symm

theorem SpecialType.eq_of_label {s s' : SpecialType} (h : s.label = s'.label) : s = s' := by
  cases s <;> cases s' <;> first | rfl | exact absurd h (by decide)

theorem Variance.eq_of_label {v v' : Variance} (h : v.label = v'.label) : v = v' := by
  cases v <;> cases v' <;> first | rfl | exact absurd h (by decide)

theorem Literal.eq_of_same {l l' : Literal} (h : Same l.toJson l'.toJson) : l = l' := by
  cases l with
  | bool b =>
    cases l' with
    | bool b' => cases b <;> cases b' <;> first | rfl | exact absurd h.string_inj (by decide)
    | string _ | symbol _ | integer _ => cases b <;> cases h
  | string quoted =>
    cases l' with
    | string quoted' => exact congrArg Literal.string h.head.string_inj
    | bool b => cases b <;> cases h
    | symbol _ | integer _ => exact absurd h.only_key (by decide)
  | symbol name =>
    cases l' with
    | symbol name' => exact congrArg Literal.symbol h.head.string_inj
    | bool b => cases b <;> cases h
    | string _ | integer _ => exact absurd h.only_key (by decide)
  | integer value =>
    cases l' with
    | integer value' => exact congrArg Literal.integer h.head.int_inj
    | bool b => cases b <;> cases h
    | string _ | symbol _ => exact absurd h.only_key (by decide)

theorem RecordKey.eq_of_same {k k' : RecordKey} (h : Same k.toJson k'.toJson) : k = k' := by
  cases k with
  | symbol name =>
    cases k' with
    | symbol name' => exact congrArg RecordKey.symbol h.head.string_inj
    | string _ => exact absurd h.only_key (by decide)
  | string quoted =>
    cases k' with
    | string quoted' => exact congrArg RecordKey.string h.head.string_inj
    | symbol _ => exact absurd h.only_key (by decide)

/-! ## Parameters -/

/-- A parameter with its slot, as it is encoded. -/
def Param.encode (p : Param) : EncodedParam :=
  ⟨p.slot, .object [("ty", p.type.toJson), ("name", Json.optional .string p.name)]⟩

/-- The parameters of the slots with a rank. -/
def paramsOfRank (rank : Nat) (ps : List Param) : List Param :=
  ps.filter fun p => p.slot.rank == rank

theorem encodeParams_eq_map (ps : List Param) : encodeParams ps = ps.map Param.encode := by
  induction ps with
  | nil => rfl
  | cons p rest ih =>
    obtain ⟨slot, type, name⟩ := p
    rw [encodeParams, ih]
    rfl

theorem ofRank_encodeParams (rank : Nat) (ps : List Param) :
    EncodedParam.ofRank rank (encodeParams ps) = (paramsOfRank rank ps).map Param.encode := by
  rw [encodeParams_eq_map, EncodedParam.ofRank, List.filter_map]
  rfl

theorem rank_of_mem {rank : Nat} {ps : List Param} {p : Param} (h : p ∈ paramsOfRank rank ps) :
    p.slot.rank = rank :=
  beq_iff_eq.1 (List.mem_filter.1 h).2

theorem Slot.eq_of_rank {a b : Slot} (hrank : a.rank = b.rank)
    (hkey : EncodedParam.key a = EncodedParam.key b) : a = b := by
  cases a <;> cases b <;> first | rfl | exact congrArg _ hkey | cases hrank

theorem Slot.eq_of_single {slot other : Slot} (hsingle : slot.isSingle = true)
    (hrank : other.rank = slot.rank) : other = slot := by
  cases slot with
  | rest | restKeywords => cases other <;> first | rfl | cases hrank
  | _ => cases hsingle

/-- In front of the keywords no slot has a key. -/
theorem Slot.key_of_rank_lt {slot : Slot} (h : slot.rank < 4) : EncodedParam.key slot = "" := by
  cases slot <;> first | rfl | exact absurd h (Nat.not_lt.2 (by simp [Slot.rank]))

theorem Slot.rank_lt_seven (slot : Slot) : slot.rank < 7 := by
  cases slot <;> simp [Slot.rank]

/-- Lists that agree at every number have the same elements. -/
theorem mem_iff_of_filter_eq {α : Type} (f : α → Nat) {as bs : List α}
    (h : ∀ n, (as.filter fun a => f a == n) = bs.filter fun b => f b == n) (x : α) :
    x ∈ as ↔ x ∈ bs := by
  have hfilter : x ∈ (as.filter fun a => f a == f x) ↔ x ∈ bs.filter fun b => f b == f x := by
    rw [h]
  simpa using hfilter

/-- Lists in the order of a number are equal if they agree at every number. -/
theorem eq_of_filter_eq {α : Type} (f : α → Nat) {as bs : List α}
    (has : as.Pairwise fun a b => f a ≤ f b) (hbs : bs.Pairwise fun a b => f a ≤ f b)
    (h : ∀ n, (as.filter fun a => f a == n) = bs.filter fun b => f b == n) : as = bs := by
  induction as generalizing bs with
  | nil =>
    refine (List.eq_nil_iff_forall_not_mem.2 fun x hx => ?_).symm
    exact absurd ((mem_iff_of_filter_eq f h x).2 hx) List.not_mem_nil
  | cons a as ih =>
    have hmem := mem_iff_of_filter_eq f h
    cases bs with
    | nil => exact absurd ((hmem a).1 List.mem_cons_self) List.not_mem_nil
    | cons b bs =>
      obtain ⟨hale, has⟩ := List.pairwise_cons.1 has
      obtain ⟨hble, hbs'⟩ := List.pairwise_cons.1 hbs
      have hba : f b ≤ f a := by
        rcases List.mem_cons.1 ((hmem a).1 List.mem_cons_self) with heq | hin
        · exact heq ▸ le_refl _
        · exact hble a hin
      have hab : f a ≤ f b := by
        rcases List.mem_cons.1 ((hmem b).2 List.mem_cons_self) with heq | hin
        · exact heq ▸ le_refl _
        · exact hale b hin
      have hsame : f a = f b := le_antisymm hab hba
      have hfirst := h (f a)
      rw [List.filter_cons_of_pos (by simp), List.filter_cons_of_pos (by simp [hsame])] at hfirst
      obtain ⟨rfl, hrest⟩ := List.cons.inj hfirst
      refine congrArg (a :: ·) (ih has hbs' fun n => ?_)
      by_cases hn : f a = n
      · exact hn ▸ hrest
      · have hother := h n
        rwa [List.filter_cons_of_neg (by simpa using hn),
          List.filter_cons_of_neg (by simpa using hn)] at hother

section Slots

variable {rank : Nat} {ps qs : List Param}

theorem paramsOfRank_of_le (ps : List Param) (h : 7 ≤ rank) : paramsOfRank rank ps = [] := by
  refine List.eq_nil_iff_forall_not_mem.2 fun p hp => ?_
  have hlt := p.slot.rank_lt_seven
  rw [rank_of_mem hp] at hlt
  omega

/-- Settled parameters are determined by what stands in each slot. -/
theorem SettledParams.eq_of_rank (hps : SettledParams ps) (hqs : SettledParams qs)
    (h : ∀ rank, paramsOfRank rank ps = paramsOfRank rank qs) : ps = qs :=
  eq_of_filter_eq (fun p : Param => p.slot.rank) (hps.ordered.imp fun hpq => hpq.1)
    (hqs.ordered.imp fun hpq => hpq.1) h

/-- A slot for one parameter holds at most one. -/
theorem SettledParams.length_le_one (hps : SettledParams ps) {slot : Slot}
    (hsingle : slot.isSingle = true) : (paramsOfRank slot.rank ps).length ≤ 1 := by
  have hslot : ∀ p ∈ paramsOfRank slot.rank ps, p.slot = slot :=
    fun p hp => Slot.eq_of_single hsingle (rank_of_mem hp)
  have hordered : (paramsOfRank slot.rank ps).Pairwise fun p q => p.slot.Precedes q.slot :=
    hps.ordered.sublist List.filter_sublist
  match hparams : paramsOfRank slot.rank ps with
  | [] | [_] => simp
  | p :: q :: rest =>
    rw [hparams] at hslot hordered
    have hp := hslot p (by simp)
    have hq := hslot q (by simp)
    have hprecedes := (List.pairwise_cons.1 hordered).1 q (by simp)
    rw [hp, hq] at hprecedes
    exact absurd rfl (hprecedes.2 hsingle)

/-- Two parameters of one slot with the same encoding are equal if their types are told apart. -/
theorem Param.eq_of_same {p q : Param} (hslot : p.slot = q.slot)
    (htype : Same p.type.toJson q.type.toJson → p.type = q.type)
    (h : Same p.encode.json q.encode.json) : p = q := by
  obtain ⟨slot, type, name⟩ := p
  obtain ⟨slot', type', name'⟩ := q
  match h.values ["ty", "name"] rfl rfl (by decide) with
  | .cons hjson (.cons hname .nil) =>
    rw [Param.mk.injEq]
    refine ⟨hslot, htype hjson, ?_⟩
    exact Same.optional_inj Json.string (fun _ => nofun) hname fun _ _ _ _ => Same.string_inj

/-- The parameter of a slot for one parameter, or `null`. -/
theorem single_encodeParams (rank : Nat) (ps : List Param) :
    EncodedParam.single rank (encodeParams ps) =
      Json.optional (fun p : Param => p.encode.json) (paramsOfRank rank ps).head? := by
  rw [EncodedParam.single, ofRank_encodeParams]
  cases paramsOfRank rank ps <;> rfl

theorem eq_of_head?_eq {α : Type} {as bs : List α} (has : as.length ≤ 1) (hbs : bs.length ≤ 1)
    (h : as.head? = bs.head?) : as = bs := by
  match as, bs with
  | [], [] => rfl
  | [a], [b] => rw [Option.some.inj h]
  | [], [_] | [_], [] => cases h

variable (hinj : ∀ p ∈ ps, ∀ q ∈ qs, Same p.type.toJson q.type.toJson → p.type = q.type)

include hinj

theorem Param.eq_of_rank {p q : Param} (hp : p ∈ paramsOfRank rank ps)
    (hq : q ∈ paramsOfRank rank qs)
    (hkey : EncodedParam.key p.slot = EncodedParam.key q.slot)
    (h : Same p.encode.json q.encode.json) : p = q :=
  Param.eq_of_same (Slot.eq_of_rank ((rank_of_mem hp).trans (rank_of_mem hq).symm) hkey)
    (hinj p (List.mem_filter.1 hp).1 q (List.mem_filter.1 hq).1) h

theorem paramsOfRank_eq_of_positional (hrank : rank < 4)
    (h : Same (EncodedParam.positional rank (encodeParams ps))
      (EncodedParam.positional rank (encodeParams qs))) :
    paramsOfRank rank ps = paramsOfRank rank qs := by
  rw [EncodedParam.positional, EncodedParam.positional, ofRank_encodeParams, ofRank_encodeParams,
    List.map_map, List.map_map] at h
  refine Same.eq_of_forall₂ h.array_map fun p hp q hq hpq => Param.eq_of_rank hinj hp hq ?_ hpq
  rw [Slot.key_of_rank_lt ((rank_of_mem hp).trans_lt hrank),
    Slot.key_of_rank_lt ((rank_of_mem hq).trans_lt hrank)]

theorem paramsOfRank_eq_of_keywords
    (h : Same (EncodedParam.keywords rank (encodeParams ps))
      (EncodedParam.keywords rank (encodeParams qs))) :
    paramsOfRank rank ps = paramsOfRank rank qs := by
  rw [EncodedParam.keywords, EncodedParam.keywords, ofRank_encodeParams, ofRank_encodeParams,
    List.map_map, List.map_map] at h
  refine Same.eq_of_forall₂ h.array_map fun p hp q hq hpq => ?_
  match hpq.items with
  | .cons hkey (.cons hjson .nil) => exact Param.eq_of_rank hinj hp hq hkey.string_inj hjson

theorem paramsOfRank_eq_of_single (slot : Slot) (hsingle : slot.isSingle = true)
    (hps : SettledParams ps) (hqs : SettledParams qs)
    (h : Same (EncodedParam.single slot.rank (encodeParams ps))
      (EncodedParam.single slot.rank (encodeParams qs))) :
    paramsOfRank slot.rank ps = paramsOfRank slot.rank qs := by
  refine eq_of_head?_eq (hps.length_le_one hsingle) (hqs.length_le_one hsingle) ?_
  rw [single_encodeParams, single_encodeParams] at h
  refine Same.optional_inj (fun p => p.encode.json) (fun _ => nofun) h fun p hp q hq hpq => ?_
  have hp := List.mem_of_head? hp
  have hq := List.mem_of_head? hq
  refine Param.eq_of_rank hinj hp hq ?_ hpq
  rw [Slot.eq_of_single hsingle (rank_of_mem hp), Slot.eq_of_single hsingle (rank_of_mem hq)]

end Slots

/-- Parameters in the order of their slots and a return type are determined by their encoding, if
the types in them are. -/
theorem FunctionType.eq_of_same {f g : FunctionType} (hf : SettledParams f.params)
    (hg : SettledParams g.params)
    (hinj : ∀ t ∈ f.types, ∀ u ∈ g.types, Same t.toJson u.toJson → t = u)
    (h : Same f.toJson g.toJson) : f = g := by
  obtain ⟨ps, t⟩ := f
  obtain ⟨qs, u⟩ := g
  have hparams : ∀ p ∈ ps, ∀ q ∈ qs, Same p.type.toJson q.type.toJson → p.type = q.type :=
    fun p hp q hq => hinj _ (List.mem_append_left _ (List.mem_map_of_mem hp)) _
      (List.mem_append_left _ (List.mem_map_of_mem hq))
  have hreturn : Same t.toJson u.toJson → t = u :=
    hinj t (List.mem_append_right _ (List.mem_singleton_self t)) u
      (List.mem_append_right _ (List.mem_singleton_self u))
  rw [FunctionType.toJson, FunctionType.toJson] at h
  match h.values ["required", "optional", "rest", "trailing", "required_keywords",
      "optional_keywords", "rest_keywords", "return_type"] rfl rfl (by decide) with
  | .cons hrequired (.cons hoptional (.cons hrest (.cons htrailing (.cons hkeywords
      (.cons hoptionalKeywords (.cons hrestKeywords (.cons hjson .nil))))))) =>
    rw [FunctionType.mk.injEq]
    refine ⟨hf.eq_of_rank hg fun rank => ?_, hreturn hjson⟩
    match rank with
    | 0 => exact paramsOfRank_eq_of_positional hparams (by decide) hrequired
    | 1 => exact paramsOfRank_eq_of_positional hparams (by decide) hoptional
    | 2 => exact paramsOfRank_eq_of_single hparams .rest rfl hf hg hrest
    | 3 => exact paramsOfRank_eq_of_positional hparams (by decide) htrailing
    | 4 => exact paramsOfRank_eq_of_keywords hparams hkeywords
    | 5 => exact paramsOfRank_eq_of_keywords hparams hoptionalKeywords
    | 6 => exact paramsOfRank_eq_of_single hparams .restKeywords rfl hf hg hrestKeywords
    | n + 7 =>
      have hle : 7 ≤ n + 7 := Nat.le_add_left 7 n
      rw [paramsOfRank_of_le ps hle, paramsOfRank_of_le qs hle]

/-- Parameters and those of a block in the order of their slots. -/
structure SettledCallable (function : FunctionType) (block : Option Block) : Prop where
  function : SettledParams function.params
  block : ∀ b ∈ block, SettledParams b.function.params

theorem SettledCallable.eq_of_same {f g : FunctionType} {b b' : Option Block}
    (hf : SettledCallable f b) (hg : SettledCallable g b')
    (hinj : ∀ t ∈ f.types ++ blockTypes b, ∀ u ∈ g.types ++ blockTypes b',
      Same t.toJson u.toJson → t = u)
    (hfunction : Same f.toJson g.toJson) (hblock : Same (jsonOfBlock b) (jsonOfBlock b')) :
    f = g ∧ b = b' := by
  refine ⟨FunctionType.eq_of_same hf.function hg.function (fun t ht u hu =>
    hinj t (List.mem_append_left _ ht) u (List.mem_append_left _ hu)) hfunction, ?_⟩
  cases b with
  | none =>
    cases b' with
    | none => rfl
    | some c => obtain ⟨required, function⟩ := c; cases hblock
  | some c =>
    obtain ⟨required, function⟩ := c
    cases b' with
    | none => cases hblock
    | some c' =>
      obtain ⟨required', function'⟩ := c'
      match hblock.values ["required", "function"] rfl rfl (by decide) with
      | .cons hrequired (.cons hjson .nil) =>
        have hsame : function = function' := FunctionType.eq_of_same (hf.block _ rfl)
          (hg.block _ rfl) (fun t ht u hu =>
            hinj t (List.mem_append_right _ ht) u (List.mem_append_right _ hu)) hjson
        rw [hrequired.bool_inj, hsame]

/-! ## Types -/

/-- A node whose name is read back and whose parameters stand in the order of their slots. -/
def TypeExpr.RecoverableAt : TypeExpr → Prop
  | .named target => target.name.WellSpelled
  | .singleton target => target.name.WellSpelled
  | .proc function block => SettledCallable function block
  | _ => True

/-- A type that is determined by its encoding. -/
def TypeExpr.Recoverable (t : TypeExpr) : Prop := ∀ u ∈ t.nodes, u.RecoverableAt

/-- The tag of a type. -/
def TypeExpr.kindWord : TypeExpr → String
  | .named _ => "named"
  | .singleton _ => "singleton"
  | .var _ => "var"
  | .union _ => "union"
  | .intersection _ => "intersection"
  | .optional _ => "optional"
  | .tuple _ => "tuple"
  | .record _ => "record"
  | .proc _ _ => "proc"
  | .literal _ => "literal"
  | .special _ => "special"

theorem jsonOfTypes_eq_map (types : List TypeExpr) :
    jsonOfTypes types = types.map TypeExpr.toJson := by
  induction types with
  | nil => rfl
  | cons t rest ih => rw [jsonOfTypes, ih, List.map_cons]

theorem jsonOfFields_eq_map (fields : List RecordField) : jsonOfFields fields =
    fields.map fun f => .object [("key", f.key.toJson), ("ty", f.type.toJson)] := by
  induction fields with
  | nil => rfl
  | cons f rest ih => obtain ⟨key, type⟩ := f; rw [jsonOfFields, ih, List.map_cons]

theorem TypeExpr.exists_toJson (t : TypeExpr) :
    ∃ fields, t.toJson = .object (("kind", .string t.kindWord) :: fields) := by
  cases t <;> exact ⟨_, by rw [TypeExpr.toJson]; rfl⟩

theorem TypeExpr.toJson_ne_null (t : TypeExpr) : t.toJson ≠ .null := by
  obtain ⟨fields, h⟩ := t.exists_toJson
  rw [h]
  exact nofun

theorem TypeExpr.kindWord_of_same {t u : TypeExpr} (h : Same t.toJson u.toJson) :
    t.kindWord = u.kindWord := by
  obtain ⟨fields, ht⟩ := t.exists_toJson
  obtain ⟨fields', hu⟩ := u.exists_toJson
  rw [ht, hu] at h
  exact h.tag

theorem types_eq_of_same {ts us : List TypeExpr}
    (hinj : ∀ t ∈ ts, ∀ u ∈ us, Same t.toJson u.toJson → t = u)
    (h : Same (.array (jsonOfTypes ts)) (.array (jsonOfTypes us))) : ts = us := by
  rw [jsonOfTypes_eq_map, jsonOfTypes_eq_map] at h
  exact Same.list_inj h hinj

theorem fields_eq_of_same {fs gs : List RecordField}
    (hinj : ∀ t ∈ fs.map (·.type), ∀ u ∈ gs.map (·.type), Same t.toJson u.toJson → t = u)
    (h : Same (.array (jsonOfFields fs)) (.array (jsonOfFields gs))) : fs = gs := by
  rw [jsonOfFields_eq_map, jsonOfFields_eq_map] at h
  refine Same.list_inj h fun f hf g hg hfg => ?_
  obtain ⟨key, type⟩ := f
  obtain ⟨key', type'⟩ := g
  match hfg.values ["key", "ty"] rfl rfl (by decide) with
  | .cons hkey (.cons htype .nil) =>
    exact congrArg₂ RecordField.mk (RecordKey.eq_of_same hkey)
      (hinj _ (List.mem_map_of_mem hf) _ (List.mem_map_of_mem hg) htype)

/-- A name with arguments is determined by its encoding, if its name is read back and its arguments
are determined by theirs. -/
theorem NamedType.eq_of_same {t u : NamedType} (ht : t.name.WellSpelled) (hu : u.name.WellSpelled)
    (hinj : ∀ a ∈ t.args, ∀ b ∈ u.args, Same a.toJson b.toJson → a = b)
    (h : Same t.toJson u.toJson) : t = u := by
  obtain ⟨name, args, span⟩ := t
  obtain ⟨name', args', span'⟩ := u
  match h.values ["name", "args", "span"] rfl rfl (by decide) with
  | .cons hname (.cons hargs (.cons hspan .nil)) =>
    rw [NamedType.mk.injEq]
    exact ⟨TypeName.eq_of_same ht hu hname, types_eq_of_same hinj hargs, Span.eq_of_same hspan⟩

theorem NamedType.lookup_kind (t : NamedType) : t.toFields.lookup "kind" = none := by
  obtain ⟨name, args, span⟩ := t
  rfl

/-- A node is determined by its encoding if its children are by theirs. -/
theorem TypeExpr.eq_of_same_of_children {t u : TypeExpr} (ht : t.RecoverableAt)
    (hu : u.RecoverableAt)
    (hinj : ∀ c ∈ t.children, ∀ d ∈ u.children, Same c.toJson d.toJson → c = d)
    (h : Same t.toJson u.toJson) : t = u := by
  have hkind := TypeExpr.kindWord_of_same h
  cases t with
  | named target =>
    cases u with
    | named target' =>
      rw [TypeExpr.toJson, TypeExpr.toJson] at h
      have hfields := h.untagged target.lookup_kind target'.lookup_kind
      exact congrArg TypeExpr.named (NamedType.eq_of_same ht hu hinj hfields)
    | _ => simp [TypeExpr.kindWord] at hkind
  | singleton target =>
    cases u with
    | singleton target' =>
      rw [TypeExpr.toJson, TypeExpr.toJson] at h
      obtain _ | ⟨-, _ | ⟨hname, _ | ⟨hspan, -⟩⟩⟩ :=
        h.values ["kind", "name", "span"] rfl rfl (by decide)
      exact congrArg TypeExpr.singleton (congrArg₂ SingletonType.mk
        (TypeName.eq_of_same ht hu hname) (Span.eq_of_same hspan))
    | _ => simp [TypeExpr.kindWord] at hkind
  | var name =>
    cases u with
    | var name' =>
      rw [TypeExpr.toJson, TypeExpr.toJson] at h
      obtain _ | ⟨-, _ | ⟨hname, -⟩⟩ := h.values ["kind", "name"] rfl rfl (by decide)
      exact congrArg TypeExpr.var hname.string_inj
    | _ => simp [TypeExpr.kindWord] at hkind
  | union types =>
    cases u with
    | union types' =>
      rw [TypeExpr.toJson, TypeExpr.toJson] at h
      obtain _ | ⟨-, _ | ⟨htypes, -⟩⟩ := h.values ["kind", "types"] rfl rfl (by decide)
      exact congrArg TypeExpr.union (types_eq_of_same hinj htypes)
    | _ => simp [TypeExpr.kindWord] at hkind
  | intersection types =>
    cases u with
    | intersection types' =>
      rw [TypeExpr.toJson, TypeExpr.toJson] at h
      obtain _ | ⟨-, _ | ⟨htypes, -⟩⟩ := h.values ["kind", "types"] rfl rfl (by decide)
      exact congrArg TypeExpr.intersection (types_eq_of_same hinj htypes)
    | _ => simp [TypeExpr.kindWord] at hkind
  | optional inner =>
    cases u with
    | optional inner' =>
      rw [TypeExpr.toJson, TypeExpr.toJson] at h
      obtain _ | ⟨-, _ | ⟨hinner, -⟩⟩ := h.values ["kind", "inner"] rfl rfl (by decide)
      exact congrArg TypeExpr.optional (hinj inner (List.mem_singleton_self _) inner'
        (List.mem_singleton_self _) hinner)
    | _ => simp [TypeExpr.kindWord] at hkind
  | tuple types =>
    cases u with
    | tuple types' =>
      rw [TypeExpr.toJson, TypeExpr.toJson] at h
      obtain _ | ⟨-, _ | ⟨htypes, -⟩⟩ := h.values ["kind", "types"] rfl rfl (by decide)
      exact congrArg TypeExpr.tuple (types_eq_of_same hinj htypes)
    | _ => simp [TypeExpr.kindWord] at hkind
  | record fields =>
    cases u with
    | record fields' =>
      rw [TypeExpr.toJson, TypeExpr.toJson] at h
      obtain _ | ⟨-, _ | ⟨hfields, -⟩⟩ := h.values ["kind", "fields"] rfl rfl (by decide)
      exact congrArg TypeExpr.record (fields_eq_of_same hinj hfields)
    | _ => simp [TypeExpr.kindWord] at hkind
  | proc function block =>
    cases u with
    | proc function' block' =>
      rw [TypeExpr.toJson, TypeExpr.toJson] at h
      obtain _ | ⟨-, _ | ⟨hfunction, _ | ⟨hblock, -⟩⟩⟩ :=
        h.values ["kind", "function", "block"] rfl rfl (by decide)
      obtain ⟨rfl, rfl⟩ := SettledCallable.eq_of_same ht hu hinj hfunction hblock
      rfl
    | _ => simp [TypeExpr.kindWord] at hkind
  | literal value =>
    cases u with
    | literal value' =>
      rw [TypeExpr.toJson, TypeExpr.toJson] at h
      obtain _ | ⟨-, _ | ⟨hvalue, -⟩⟩ := h.values ["kind", "value"] rfl rfl (by decide)
      exact congrArg TypeExpr.literal (Literal.eq_of_same hvalue)
    | _ => simp [TypeExpr.kindWord] at hkind
  | special type =>
    cases u with
    | special type' =>
      rw [TypeExpr.toJson, TypeExpr.toJson] at h
      obtain _ | ⟨-, _ | ⟨htype, -⟩⟩ := h.values ["kind", "special"] rfl rfl (by decide)
      exact congrArg TypeExpr.special (SpecialType.eq_of_label htype.string_inj)
    | _ => simp [TypeExpr.kindWord] at hkind

theorem TypeExpr.recoverable_iff (t : TypeExpr) :
    t.Recoverable ↔ t.RecoverableAt ∧ ∀ c ∈ t.children, c.Recoverable := by
  rw [TypeExpr.Recoverable, TypeExpr.nodes_eq, List.forall_mem_cons, List.forall_mem_flatMap]
  rfl

theorem TypeExpr.eq_of_same {t u : TypeExpr} (ht : t.Recoverable) (hu : u.Recoverable)
    (h : Same t.toJson u.toJson) : t = u := by
  induction t using TypeExpr.inductionOnChildren generalizing u with
  | step t ih =>
    obtain ⟨htAt, htChildren⟩ := t.recoverable_iff.1 ht
    obtain ⟨huAt, huChildren⟩ := u.recoverable_iff.1 hu
    exact TypeExpr.eq_of_same_of_children htAt huAt
      (fun c hc d hd => ih c hc (htChildren c hc) (huChildren d hd)) h

/-- A name with arguments that is determined by its encoding. -/
structure NamedType.Recoverable (t : NamedType) : Prop where
  name : t.name.WellSpelled
  args : ∀ a ∈ t.args, a.Recoverable

theorem NamedType.eq_of_recoverable {t u : NamedType} (ht : t.Recoverable) (hu : u.Recoverable)
    (h : Same t.toJson u.toJson) : t = u :=
  NamedType.eq_of_same ht.name hu.name
    (fun a ha b hb => TypeExpr.eq_of_same (ht.args a ha) (hu.args b hb)) h

/-! ## Overloads -/

/-- A type parameter whose bound is determined by its encoding. -/
def TypeParam.Recoverable (p : TypeParam) : Prop := ∀ t ∈ p.upperBound, t.Recoverable

theorem TypeParam.eq_of_same {p q : TypeParam} (hp : p.Recoverable) (hq : q.Recoverable)
    (h : Same p.toJson q.toJson) : p = q := by
  obtain ⟨name, variance, unchecked, bound, span⟩ := p
  obtain ⟨name', variance', unchecked', bound', span'⟩ := q
  match h.values ["name", "variance", "unchecked", "upper_bound", "span"] rfl rfl (by decide) with
  | .cons hname (.cons hvariance (.cons hunchecked (.cons hbound (.cons hspan .nil)))) =>
    rw [TypeParam.mk.injEq]
    refine ⟨hname.string_inj, Variance.eq_of_label hvariance.string_inj, hunchecked.bool_inj, ?_,
      Span.eq_of_same hspan⟩
    exact Same.optional_inj TypeExpr.toJson TypeExpr.toJson_ne_null hbound fun t ht u hu =>
      TypeExpr.eq_of_same (hp t ht) (hq u hu)

/-- An overload that is determined by its encoding. -/
structure MethodType.Recoverable (m : MethodType) : Prop where
  params : ∀ p ∈ m.typeParams, p.Recoverable
  callable : SettledCallable m.function m.block
  types : ∀ t ∈ m.function.types ++ blockTypes m.block, t.Recoverable

theorem MethodType.eq_of_same {m n : MethodType} (hm : m.Recoverable) (hn : n.Recoverable)
    (h : Same m.toJson n.toJson) : m = n := by
  obtain ⟨params, function, block, span⟩ := m
  obtain ⟨params', function', block', span'⟩ := n
  match h.values ["type_params", "function", "block", "span"] rfl rfl (by decide) with
  | .cons hparams (.cons hfunction (.cons hblock (.cons hspan .nil))) =>
    obtain ⟨rfl, rfl⟩ := SettledCallable.eq_of_same hm.callable hn.callable
      (fun t ht u hu => TypeExpr.eq_of_same (hm.types t ht) (hn.types u hu)) hfunction hblock
    rw [MethodType.mk.injEq]
    exact ⟨Same.list_inj hparams fun p hp q hq =>
      TypeParam.eq_of_same (hm.params p hp) (hn.params q hq), rfl, rfl, Span.eq_of_same hspan⟩

end RubySig
