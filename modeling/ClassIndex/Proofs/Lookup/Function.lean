/-
Looking up a function, from the bytes of its class to its definition.

`IsFunction` describes the class file of a function: one method besides
constructors and static initialisers, under the name agreed on, with a debug table
that names each parameter at the slot where the frame of a call puts it.  Lines
that start later and lines of other slots may stand in between, in any order.

`function_eq_ok` is the main statement.  It goes through all the stages: the bytes
decode to what the file denotes, the words that the decoder counts slots in are the
slots of the frame, and the names found there are those of the lines.
-/
import ClassIndex.Lookup
import ClassIndex.Proofs.ClassFormat.DebugNames
import ClassIndex.Proofs.ClassFormat.MemberRefs
import ClassIndex.Proofs.ClassInfo.Slots

namespace ClassIndex

open ClassFormat Descriptor

/-! ## Signatures -/

theorem Descriptor.DescribesAll.ne_void {cs : List Char} {ts : List JvmType}
    (h : DescribesAll cs ts) : ∀ t ∈ ts, t ≠ .primitive .void := by
  induction h with
  | nil => exact nofun
  | cons ht _ ih =>
    intro u hu
    rcases List.mem_cons.mp hu with rfl | hu
    · cases ht with
      | primitive hkind =>
        intro h
        cases h
        exact hkind rfl
      | reference _ => exact nofun
      | array _ => exact nofun
    · exact ih u hu

theorem Descriptor.DescribesSignature.ne_void {cs : List Char} {s : Signature}
    (h : DescribesSignature cs s) : ∀ t ∈ s.parameters, t ≠ .primitive .void := by
  cases h with
  | mk hp _ => exact hp.ne_void

/-- A descriptor has one reading. -/
theorem Descriptor.DescribesSignature.unique {d : String} {s t : Signature}
    (hs : DescribesSignature d.toList s) (ht : DescribesSignature d.toList t) : s = t := by
  have h := signature_eq_ok_iff.mpr hs
  rw [signature_eq_ok_iff.mpr ht] at h
  exact (Except.ok.inj h).symm

/-! ## Parameters -/

theorem Table.get?_add_empty {κ α : Type} [Ord κ] [Std.TransOrd κ] [Std.LawfulEqOrd κ]
    [DecidableEq κ] (k : κ) (a : α) : ((empty : Table κ α).add k a).get? k = some a := by
  rw [get?_add, get?_empty, if_pos rfl]
  rfl

namespace FunctionDefinition

theorem mapM_parameter_eq_ok {names : LocalNames} {slots : List UInt16} {ns : List String}
    (h : List.Forall₂ (fun slot n => names.get? slot = some n) slots ns) {ts : List JvmType}
    (hlen : slots.length = ts.length) (k : Nat) :
    ((slots.zip ts).zipIdx k).mapM
        (fun ((slot, t), index) => parameter names index slot t) =
      .ok (List.zipWith Parameter.mk ns (ts.map TypeUse.ofJvm)) := by
  induction h generalizing ts k with
  | nil => rfl
  | @cons slot n slots ns hslot _ ih =>
    cases ts with
    | nil => cases hlen
    | cons t ts =>
      have hparam : parameter names k slot t = .ok ⟨n, .ofJvm t⟩ := by
        unfold parameter
        rw [hslot]
      have htail := ih (Nat.succ.inj hlen) (k + 1)
      rw [List.zip_cons_cons, List.zipIdx_cons, List.mapM_cons]
      show (do
        let p ← parameter names k slot t
        let ps ← ((slots.zip ts).zipIdx (k + 1)).mapM
          (fun ((slot, t), index) => parameter names index slot t)
        pure (p :: ps)) = _
      rw [hparam, htail]
      rfl

theorem length_slotsFrom (start : UInt16) (ts : List JvmType) :
    (MethodInfo.slotsFrom start ts).length = ts.length := by
  induction ts generalizing start with
  | nil => rfl
  | cons t ts ih => rw [MethodInfo.slotsFrom, List.length_cons, List.length_cons, ih]

theorem parametersOf_eq_ok {m : MethodInfo} {names : LocalNames} {ns : List String}
    (hlocals : m.locals = some names)
    (h : List.Forall₂ (fun slot n => names.get? slot = some n) m.slots ns) :
    parametersOf m =
      .ok (List.zipWith Parameter.mk ns (m.signature.parameters.map TypeUse.ofJvm)) := by
  unfold parametersOf
  rw [hlocals]
  exact mapM_parameter_eq_ok h (length_slotsFrom _ _) 0

end FunctionDefinition

/-! ## Loading -/

/-- What a name is registered with is loaded from the bytes it is opened to. -/
theorem Lookup.functionClass_eq_ok {l : Lookup} {name : String} {binary : Binary}
    {bs : List UInt8} {c : ClassInfo} (hloader : l.loader = Loader.decoding)
    (hname : l.index.functions.get? name = some binary) (hread : binary.read l.files = .ok bs)
    (hdecode : decode bs = .ok c) : l.functionClass name = .ok (some c) := by
  have hcontains : l.index.functions.contains name = true := by
    rw [Table.contains_eq_isSome, hname]
    rfl
  obtain ⟨stream, hopen, hstream⟩ : ∃ stream, binary.openStream l.files = .ok stream ∧
      stream.read = .ok bs := by
    unfold Binary.read at hread
    obtain ⟨stream, hopen, hstream⟩ := except_bind_eq_ok.mp hread
    refine ⟨stream, hopen, ?_⟩
    cases hcases : stream.read with
    | ok bs' =>
      rw [hcases] at hstream
      cases hstream
      rfl
    | error e =>
      rw [hcases] at hstream
      cases hstream
  have hdemand : (l.index.functionView l.files name).demand name = .ok stream := by
    unfold View.demand Index.functionView View.ofBinaries Index.functionBinary?
    simp only [if_true, hname, hopen]
  unfold Lookup.functionClass
  rw [if_pos hcontains, hloader]
  unfold Loader.decoding
  rw [hdemand]
  simp only [bind, Except.bind, hstream, Except.mapError, hdecode]
  rfl

theorem Lookup.function_of_class {l : Lookup} {name : String} {c : ClassInfo}
    {definition : FunctionDefinition} (hclass : l.functionClass name = .ok (some c))
    (h : FunctionDefinition.ofClass l.settings.invokeName name c = .ok definition) :
    l.function name = .ok (some definition) := by
  unfold Lookup.function
  rw [hclass]
  dsimp only
  rw [h]

/-! ## The class file of a function -/

/-- A class file with one method to call, every parameter of which has a name. -/
structure ClassFormat.ClassFile.IsFunction (f : ClassFile) (invokeName o d : String)
    (s : Signature) (m : MemberForm) (names : List String) : Prop where
  wellFormed : f.WellFormed
  owner : className? f.pool f.thisClass = some o
  only : f.methods.filter (fun m => text? f.pool m.name ≠ some "<clinit>" ∧
    text? f.pool m.name ≠ some "<init>") = [m]
  name : text? f.pool m.name = some invokeName
  descriptor : text? f.pool m.descriptor = some d
  signature : DescribesSignature d.toList s
  fits : (s.parameters.map JvmType.frameWidth).sum ≤ 65535
  named : ∃ lines, m.HasTable f.pool lines ∧
    List.Forall₂ (NamesAtStart f.pool lines)
      (MethodInfo.frameSlots (if m.access &&& 0x0008 ≠ 0 then 0 else 1) s.parameters) names

/-- The only declared method of a file is that of the class it denotes. -/
theorem ClassFormat.ClassFile.Denotes.exists_method {f : ClassFile} {m : MemberForm}
    {c : ClassInfo} (hc : f.Denotes c)
    (honly : f.methods.filter (fun m => text? f.pool m.name ≠ some "<clinit>" ∧
      text? f.pool m.name ≠ some "<init>") = [m]) :
    ∃ i, c.methods = [i] ∧ m.DenotesMethod f.pool i := by
  obtain ⟨infos, hinfos, hdeclared, -⟩ := hc.methods
  have hfiltered := forall₂_filter_name hinfos (fun hR => hR.name)
    (fun name => decide (name ≠ some "<clinit>" ∧ name ≠ some "<init>"))
  rw [honly] at hfiltered
  simp only [ne_eq, Option.some.injEq] at hfiltered
  rw [hdeclared]
  exact exists_of_forall₂_singleton hfiltered

namespace ClassFormat.MemberForm.DenotesMethod

variable {pool : List ConstantForm} {m : MemberForm} {i : MethodInfo} {d : String} {s : Signature}

theorem signature_eq (hi : m.DenotesMethod pool i) (hd : text? pool m.descriptor = some d)
    (hs : DescribesSignature d.toList s) : i.signature = s := by
  obtain ⟨d', hd', hs'⟩ := hi.signature
  rw [hd] at hd'
  cases hd'
  exact hs'.unique hs

theorem isStatic_eq (hi : m.DenotesMethod pool i) :
    i.isStatic = decide (m.access &&& 0x0008 ≠ 0) := by
  show i.access.isStatic = _
  rw [hi.access]
  rfl

/-- The slots that the decoder counts are those of the frame of a call. -/
theorem map_toNat_slots (hi : m.DenotesMethod pool i) (hd : text? pool m.descriptor = some d)
    (hs : DescribesSignature d.toList s)
    (hfits : (s.parameters.map JvmType.frameWidth).sum ≤ 65535) :
    i.slots.map UInt16.toNat =
      MethodInfo.frameSlots (if m.access &&& 0x0008 ≠ 0 then 0 else 1) s.parameters := by
  obtain rfl := hi.signature_eq hd hs
  rw [MethodInfo.map_toNat_slots hs.ne_void hfits, hi.isStatic_eq]
  simp only [decide_eq_true_eq]

end ClassFormat.MemberForm.DenotesMethod

namespace ClassFormat.ClassFile.IsFunction

variable {f : ClassFile} {invokeName o d : String} {s : Signature} {m : MemberForm}
  {names : List String}

/-- The names of the parameters are found at the slots of the method. -/
theorem parametersOf_eq_ok (h : f.IsFunction invokeName o d s m names)
    {i : MethodInfo} (hi : m.DenotesMethod f.pool i) : FunctionDefinition.parametersOf i =
      .ok (List.zipWith Parameter.mk names (s.parameters.map TypeUse.ofJvm)) := by
  obtain ⟨lines, htable, hnamed⟩ := h.named
  obtain ⟨ns, vs, hlocals, hvs, hget⟩ := htable.locals hi
  have hs := hi.signature_eq h.descriptor h.signature
  have hslots := hi.map_toNat_slots h.descriptor h.signature h.fits
  rw [← hslots, List.forall₂_map_left_iff] at hnamed
  have hfound : List.Forall₂ (fun slot n => ns.get? slot = some n) i.slots names :=
    hnamed.imp fun slot n hn => (hget slot n).mpr (hn.claims hvs)
  rw [FunctionDefinition.parametersOf_eq_ok hlocals hfound, hs]

/-- The class is turned into a function with what its file says. -/
theorem ofClass_eq_ok (h : f.IsFunction invokeName o d s m names) {c : ClassInfo}
    (hc : f.Denotes c) (name : String) : FunctionDefinition.ofClass invokeName name c =
      .ok ⟨name, .ofJvm s.result, List.zipWith Parameter.mk names (s.parameters.map TypeUse.ofJvm),
        ⟨Name.slashed o, invokeName, Name.slashed d, decide (m.access &&& 0x0008 ≠ 0)⟩⟩ := by
  obtain ⟨i, hmethods, hi⟩ := hc.exists_method h.only
  obtain ⟨o', ho, hcname⟩ := hc.name
  have hinvoke : i.name = invokeName := Option.some.inj (hi.name.symm.trans h.name)
  have howner : o' = o := Option.some.inj (ho.symm.trans h.owner)
  have hs := hi.signature_eq h.descriptor h.signature
  have href : c.methodRef i =
      ⟨Name.slashed o, invokeName, Name.slashed d, decide (m.access &&& 0x0008 ≠ 0)⟩ := by
    unfold ClassInfo.methodRef
    rw [hcname, Name.slashed_dotted, howner, hinvoke, hs, h.signature.descriptor_eq,
      hi.isStatic_eq]
  unfold FunctionDefinition.ofClass
  rw [hmethods]
  dsimp only
  rw [if_neg (not_not.mpr hinvoke), h.parametersOf_eq_ok hi, hs, href]
  rfl

end ClassFormat.ClassFile.IsFunction

/-- A registered function whose class file is that of a function is defined by it. -/
theorem Lookup.function_eq_ok {l : Lookup} {name : String} {binary : Binary} {f : ClassFile}
    {o d : String} {s : Signature} {m : MemberForm} {names : List String}
    (hloader : l.loader = Loader.decoding)
    (hname : l.index.functions.get? name = some binary)
    (hread : binary.read l.files = .ok f.bytes)
    (hf : f.IsFunction l.settings.invokeName o d s m names) :
    ∃ definition, l.function name = .ok (some definition) ∧ definition.name = name ∧
      definition.parameters = List.zipWith Parameter.mk names (s.parameters.map TypeUse.ofJvm) ∧
      definition.result = .ofJvm s.result ∧
      definition.invocation = ⟨Name.slashed o, l.settings.invokeName, Name.slashed d,
        decide (m.access &&& 0x0008 ≠ 0)⟩ ∧
      ('.' ∉ o.toList → definition.invocation.owner = o) ∧
      ('.' ∉ d.toList → definition.invocation.descriptor = d) := by
  obtain ⟨c, hc⟩ := hf.wellFormed.exists_denotes
  have hdecode : decode f.bytes = .ok c :=
    decode_eq_ok_iff.mpr ⟨f, [], (List.append_nil _).symm, hf.wellFormed.framed, hc⟩
  have hclass := Lookup.functionClass_eq_ok hloader hname hread hdecode
  have hfunction := Lookup.function_of_class hclass (hf.ofClass_eq_ok hc name)
  exact ⟨_, hfunction, rfl, rfl, rfl, rfl, Name.slashed_of_not_mem, Name.slashed_of_not_mem⟩

theorem areaClass_isFunction : areaClass.IsFunction "invoke" "demo/Function_area" "(JI)D"
    ⟨[.primitive .long, .primitive .int], .primitive .double⟩
    ⟨0x0009, 9, 10, [⟨11, areaBody.bytes⟩]⟩ ["width", "height"] where
  wellFormed := areaClass_wellFormed
  owner := by decide
  only := by decide
  name := by decide
  descriptor := by decide
  signature := signature_eq_ok_iff.mp (by cbv)
  fits := by decide
  named := by
    refine ⟨areaLines, ⟨_, _, areaBody, rfl, rfl, areaBody_framed, rfl, rfl, by decide⟩, ?_⟩
    show List.Forall₂ _ [0, 2] _
    exact .cons ⟨⟨0, 6, 13, 15, 0⟩, by decide, by decide⟩
      (.cons ⟨⟨0, 6, 14, 16, 2⟩, by decide, by decide⟩ .nil)

def areaLookup : Lookup where
  index := { Index.empty with
    functions := Table.empty.add "demo.area" (.memory "area" areaClass.bytes) }
  files := default
  settings := {}
  loader := Loader.decoding

/-- The variable that takes over the slot of a parameter does not take its name. -/
theorem areaLookup_function : areaLookup.function "demo.area" = .ok (some
    ⟨"demo.area", .primitive .double, [⟨"width", .primitive .long⟩, ⟨"height", .primitive .int⟩],
      ⟨"demo/Function_area", "invoke", "(JI)D", true⟩⟩) := by
  have hname : areaLookup.index.functions.get? "demo.area" =
      some (.memory "area" areaClass.bytes) := Table.get?_add_empty _ _
  obtain ⟨⟨_, _, _, _⟩, hfunction, rfl, rfl, rfl, rfl, -⟩ :=
    Lookup.function_eq_ok rfl hname rfl areaClass_isFunction
  rw [hfunction]
  decide

end ClassIndex
