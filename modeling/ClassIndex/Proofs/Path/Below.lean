/-
Paths below a root.

A plain path is one whose segments are all names, none empty, `.` or `..`.  Put below a
root, it keeps its last component and its other components as they are
(`fileName_below`, `parent_below_of_nested`).  The parent of a single name is the root
itself, unless the root ends in a component `.`, which is skipped when the parent is
sought (`parent_below_of_single`): the root then comes out in another spelling.
-/
import ClassIndex.Proofs.FileTree.Visit
import Mathlib

namespace ClassIndex
namespace Path

/-- All segments are names. -/
def IsPlain (p : Path) : Prop :=
  ∀ segment ∈ p.steps, isTrivial segment = false ∧ segment ≠ [dot, dot]

/-- A path below a root that does not end in a slash. -/
def below (root p : Path) : Path :=
  ⟨root.bytes ++ slash :: p.bytes⟩

/-! ## Segments -/

theorem steps_of_not_mem {p : Path} (h : slash ∉ p.bytes) : p.steps = [p.bytes] :=
  List.splitOn_eq_singleton h

theorem steps_append {front last : List UInt8} (h : slash ∉ last) :
    (⟨front ++ slash :: last⟩ : Path).steps = (⟨front⟩ : Path).steps ++ [last] := by
  rw [steps, List.splitOn_append_cons_self, List.splitOn_eq_singleton h]
  rfl

theorem not_mem_of_mem_splitOn {bs segment : List UInt8} (h : segment ∈ bs.splitOn slash) :
    slash ∉ segment := by
  induction hn : bs.length using Nat.strongRecOn generalizing bs with
  | _ n ih =>
    by_cases hmem : slash ∈ bs
    · obtain ⟨front, rest, rfl, hfront⟩ := List.eq_append_cons_of_mem hmem
      rw [List.splitOn_append_cons_self_of_not_mem hfront, List.mem_cons] at h
      rcases h with rfl | h
      · exact hfront
      · exact ih rest.length (by rw [← hn, List.length_append, List.length_cons]; omega) h rfl
    · rw [List.splitOn_eq_singleton hmem, List.mem_singleton] at h
      exact h ▸ hmem

theorem ne_nil_of_isTrivial {segment : List UInt8} (h : isTrivial segment = false) :
    segment ≠ [] := by
  rintro rfl
  cases h

theorem trim_append_of_not_isTrivial {segments : List (List UInt8)} {last : List UInt8}
    (h : isTrivial last = false) : trim (segments ++ [last]) = segments ++ [last] := by
  rw [trim, List.reverse_append, List.reverse_singleton, List.singleton_append,
    List.dropWhile_cons_of_neg (by rw [h]; decide), List.reverse_cons, List.reverse_reverse]

variable {root p : Path}

/-! ## Going down -/

theorem join_eq {name : List UInt8} (hroot : root.bytes ≠ [])
    (hslash : root.bytes.getLast? ≠ some slash) : root.join name = root.below ⟨name⟩ := by
  have hneg : ¬ (decide (root.bytes = []) || decide (root.bytes.getLast? = some slash)) = true := by
    simp [hroot, hslash]
  rw [join, if_neg hneg]
  rfl

theorem getLast?_append_slash {front name : List UInt8} (hname : name ≠ []) (hslash : slash ∉ name) :
    (front ++ slash :: name).getLast? ≠ some slash := by
  rw [List.append_cons, List.getLast?_append, List.getLast?_eq_some_getLast hname, Option.some_or]
  intro h
  exact hslash (Option.some_inj.mp h ▸ List.getLast_mem hname)

/-- Names put below a root one after the other are put there together. -/
theorem descend_eq {names : List (List UInt8)} (hroot : root.bytes ≠ [])
    (hslash : root.bytes.getLast? ≠ some slash) (hnames : names ≠ [])
    (hplain : ∀ name ∈ names, name ≠ [] ∧ slash ∉ name) :
    root.descend names = root.below ⟨List.intercalate [slash] names⟩ := by
  induction names generalizing root with
  | nil => exact absurd rfl hnames
  | cons name rest ih =>
    obtain ⟨hname, hno⟩ := hplain name List.mem_cons_self
    rw [descend_cons, join_eq hroot hslash]
    by_cases hrest : rest = []
    · rw [hrest, List.intercalate_singleton]
      rfl
    · have hplain' : ∀ name ∈ rest, name ≠ [] ∧ slash ∉ name := fun name hmem =>
        hplain name (List.mem_cons_of_mem _ hmem)
      have hne : (root.below ⟨name⟩).bytes ≠ [] :=
        List.append_ne_nil_of_right_ne_nil _ (List.cons_ne_nil _ _)
      rw [ih hne (getLast?_append_slash hname hno) hrest hplain',
        List.intercalate_cons_of_ne_nil hrest]
      simp [below]

theorem descend_steps (hroot : root.bytes ≠ []) (hslash : root.bytes.getLast? ≠ some slash)
    (hp : p.IsPlain) : root.descend p.steps = root.below p := by
  have hplain : ∀ name ∈ p.steps, name ≠ [] ∧ slash ∉ name := fun name hname =>
    ⟨ne_nil_of_isTrivial (hp name hname).1, not_mem_of_mem_splitOn hname⟩
  have hne : p.steps ≠ [] := List.splitOn_ne_nil slash p.bytes
  rw [descend_eq hroot hslash hne hplain, steps, List.intercalate_splitOn]

/-! ## The components of a path below a root -/

theorem exists_steps_eq (p : Path) : ∃ front last, p.steps = front ++ [last] := by
  have hne : p.steps ≠ [] := List.splitOn_ne_nil slash p.bytes
  exact ⟨p.steps.dropLast, p.steps.getLast hne, (List.dropLast_concat_getLast hne).symm⟩

theorem split_below (hroot : root.bytes ≠ []) :
    (root.below p).split = (root.split.1, root.split.2 ++ slash :: p.bytes) := by
  obtain ⟨a, rest, hbytes⟩ := List.exists_cons_of_ne_nil hroot
  have hbelow : (root.below p).bytes = a :: (rest ++ slash :: p.bytes) := by
    rw [below, hbytes, List.cons_append]
  rw [split, split, hbelow, hbytes]
  by_cases hslash : a = slash
  · simp only [if_pos hslash]
  · simp only [if_neg hslash]
    cases rest with
    | nil => by_cases hdot : a = dot <;> simp [hdot]
    | cons b rest => by_cases hdot : a = dot ∧ b = slash <;> simp [hdot]

theorem body_below (hroot : root.bytes ≠ []) (hp : p.IsPlain) :
    (root.below p).body = root.split.2.splitOn slash ++ p.steps := by
  obtain ⟨front, last, hsteps⟩ := p.exists_steps_eq
  have hlast : isTrivial last = false := (hp last (by rw [hsteps]; simp)).1
  rw [body, split_below hroot, List.splitOn_append_cons_self]
  show trim (_ ++ p.steps) = _
  rw [hsteps, ← List.append_assoc, trim_append_of_not_isTrivial hlast]

theorem fileName_eq_of_body {front : List (List UInt8)} {last : List UInt8}
    (hbody : p.body = front ++ [last]) (hlast : last ≠ [dot, dot]) : p.fileName = some last := by
  rw [fileName, hbody, List.getLast?_concat, Option.filter_some, if_pos (decide_eq_true hlast)]

theorem fileName_below (hroot : root.bytes ≠ []) (hp : p.IsPlain) {front : List (List UInt8)}
    {last : List UInt8} (hsteps : p.steps = front ++ [last]) :
    (root.below p).fileName = some last := by
  have hlast : last ≠ [dot, dot] := (hp last (by rw [hsteps]; simp)).2
  have hbody : (root.below p).body = (root.split.2.splitOn slash ++ front) ++ [last] := by
    rw [body_below hroot hp, hsteps, List.append_assoc]
  exact fileName_eq_of_body hbody hlast

theorem parent_eq_of_body {front : List (List UInt8)} {last : List UInt8}
    (hbody : p.body = front ++ [last]) :
    p.parent = some ⟨p.split.1 ++ List.intercalate [slash] (trim front)⟩ := by
  rw [parent, hbody, if_neg (by simp), List.dropLast_concat]

theorem split_append (p : Path) : p.split.1 ++ p.split.2 = p.bytes := by
  unfold split
  cases p.bytes with
  | nil => rfl
  | cons a rest =>
    simp only
    split
    · rfl
    · split <;> rfl

theorem IsPlain.front {front last : List UInt8} (h : (⟨front ++ slash :: last⟩ : Path).IsPlain) :
    (⟨front⟩ : Path).IsPlain := by
  intro segment hsegment
  apply h
  rw [steps, List.splitOn_append_cons_self]
  exact List.mem_append_left _ hsegment

/-- A component that is not the first keeps what stands before it. -/
theorem parent_below_nested (hroot : root.bytes ≠ []) {front last : List UInt8}
    (hlast : slash ∉ last) (hp : (⟨front ++ slash :: last⟩ : Path).IsPlain) :
    (root.below ⟨front ++ slash :: last⟩).parent = some (root.below ⟨front⟩) := by
  have hbody : (root.below ⟨front ++ slash :: last⟩).body =
      (root.split.2.splitOn slash ++ (⟨front⟩ : Path).steps) ++ [last] := by
    rw [body_below hroot hp, steps_append hlast, List.append_assoc]
  obtain ⟨outer, inner, hsteps⟩ := (⟨front⟩ : Path).exists_steps_eq
  have hinner : isTrivial inner = false := (hp.front inner (by rw [hsteps]; simp)).1
  rw [parent_eq_of_body hbody, split_below hroot, hsteps, ← List.append_assoc,
    trim_append_of_not_isTrivial hinner, List.append_assoc, ← hsteps, steps,
    ← List.splitOn_append_cons_self, List.intercalate_splitOn, ← List.append_assoc, split_append]
  rfl

/-! ## The parent of a single name -/

/-- The segments of a root, up to the last that is not skipped. -/
def kept (root : Path) : Path :=
  ⟨root.split.1 ++ List.intercalate [slash] (trim (root.split.2.splitOn slash))⟩

theorem parent_below_single (hroot : root.bytes ≠ []) (hsingle : slash ∉ p.bytes)
    (hp : p.IsPlain) : (root.below p).parent = some root.kept := by
  have hbody : (root.below p).body = root.split.2.splitOn slash ++ [p.bytes] := by
    rw [body_below hroot hp, steps_of_not_mem hsingle]
  rw [parent_eq_of_body hbody, split_below hroot]
  rfl

theorem exists_last_of_mem {α : Type} {a : α} {l : List α} (h : a ∈ l) :
    ∃ front last, l = front ++ a :: last ∧ a ∉ last := by
  obtain ⟨last, front, hl, hlast⟩ := List.eq_append_cons_of_mem (List.mem_reverse.mpr h)
  refine ⟨front.reverse, last.reverse, ?_, fun hmem => hlast (List.mem_reverse.mp hmem)⟩
  rw [← List.reverse_reverse l, hl]
  simp

theorem split_slash (rest : List UInt8) : (⟨slash :: rest⟩ : Path).split = ([slash], rest) := by
  simp [split]

theorem split_of_not_mem (hslash : slash ∉ root.bytes) (hdot : root.bytes ≠ [dot]) :
    root.split = ([], root.bytes) := by
  unfold split
  cases hbytes : root.bytes with
  | nil => rfl
  | cons a rest =>
    rw [hbytes] at hslash hdot
    have ha : a ≠ slash := fun h => hslash (h ▸ List.mem_cons_self)
    have hrest : rest.head? ≠ some slash := fun h =>
      hslash (List.mem_cons_of_mem _ (List.mem_of_head? h))
    simp only [if_neg ha]
    rw [if_neg]
    intro h
    simp only [hrest, decide_false, Bool.or_false, Bool.and_eq_true, decide_eq_true_eq] at h
    exact hdot (by rw [h.1, h.2])

theorem kept_eq_of_split {lead front last : List UInt8}
    (hsplit : root.split = (lead, front ++ slash :: last)) (hlast : slash ∉ last)
    (hname : isTrivial last = false) : root.kept = root := by
  rw [kept, hsplit, List.splitOn_append_cons_self, List.splitOn_eq_singleton hlast,
    trim_append_of_not_isTrivial hname, ← List.splitOn_eq_singleton hlast,
    ← List.splitOn_append_cons_self, List.intercalate_splitOn]
  have hbytes := root.split_append
  rw [hsplit] at hbytes
  rw [hbytes]

theorem kept_eq_of_split_single {lead last : List UInt8} (hsplit : root.split = (lead, last))
    (hlast : slash ∉ last) (hname : isTrivial last = false) : root.kept = root := by
  have hbytes := root.split_append
  rw [hsplit] at hbytes
  rw [kept, hsplit, List.splitOn_eq_singleton hlast]
  show (⟨lead ++ List.intercalate [slash] (trim ([] ++ [last]))⟩ : Path) = root
  rw [trim_append_of_not_isTrivial hname, List.nil_append, List.intercalate_singleton, hbytes]

/-- A root that ends in a name is kept as it is. -/
theorem kept_eq (hroot : root.bytes ≠ []) (hslash : root.bytes.getLast? ≠ some slash)
    (hdot : ¬ [slash, dot] <:+ root.bytes) : root.kept = root := by
  by_cases hmem : slash ∈ root.bytes
  · obtain ⟨front, last, hbytes, hlast⟩ := exists_last_of_mem hmem
    have hname : isTrivial last = false := by
      rw [isTrivial, Bool.or_eq_false_iff, decide_eq_false_iff_not, decide_eq_false_iff_not]
      constructor
      · rintro rfl
        exact hslash (by rw [hbytes]; simp)
      · rintro rfl
        exact hdot ⟨front, hbytes.symm⟩
    obtain ⟨bytes⟩ := root
    subst hbytes
    by_cases hfront : front = []
    · subst hfront
      exact kept_eq_of_split_single (split_slash last) hlast hname
    · have hsplit : (below ⟨front⟩ ⟨last⟩).split = _ := split_below hfront
      exact kept_eq_of_split hsplit hlast hname
  · by_cases hlead : root.bytes = [dot]
    · obtain ⟨bytes⟩ := root
      subst hlead
      rfl
    · have hname : isTrivial root.bytes = false := by
        rw [isTrivial, Bool.or_eq_false_iff, decide_eq_false_iff_not, decide_eq_false_iff_not]
        exact ⟨hroot, hlead⟩
      exact kept_eq_of_split_single (split_of_not_mem hmem hlead) hmem hname

theorem intercalate_concat {segments : List (List UInt8)} (h : segments ≠ []) (last : List UInt8) :
    List.intercalate [slash] (segments ++ [last]) =
      List.intercalate [slash] segments ++ slash :: last := by
  induction segments with
  | nil => exact absurd rfl h
  | cons segment rest ih =>
    by_cases hrest : rest = []
    · subst hrest
      simp [List.intercalate_cons_cons]
    · rw [List.cons_append, List.intercalate_cons_of_ne_nil (by simp), ih hrest,
        List.intercalate_cons_of_ne_nil hrest]
      simp

theorem trim_append_of_isTrivial {segments : List (List UInt8)} {last : List UInt8}
    (h : isTrivial last = true) : trim (segments ++ [last]) = trim segments := by
  rw [trim, List.reverse_append, List.reverse_singleton, List.singleton_append,
    List.dropWhile_cons_of_pos h]
  rfl

theorem lt_of_mem_head? {c : UInt8} (hc : c < 0x80) (bs : List UInt8) :
    ∀ b ∈ (c :: bs).head?, b < 0x80 := by
  intro b hb
  cases hb
  exact hc

/-- What is skipped at the end starts with a slash or a dot. -/
theorem exists_trim_append (segments : List (List UInt8)) :
    ∃ tail, List.intercalate [slash] segments =
      List.intercalate [slash] (trim segments) ++ tail ∧ ∀ b ∈ tail.head?, b < 0x80 := by
  induction segments using List.reverseRecOn with
  | nil => exact ⟨[], rfl, nofun⟩
  | append_singleton front last ih =>
    cases hlast : isTrivial last with
    | false =>
      rw [trim_append_of_not_isTrivial hlast]
      exact ⟨[], (List.append_nil _).symm, nofun⟩
    | true =>
      rw [trim_append_of_isTrivial hlast]
      by_cases hfront : front = []
      · subst hfront
        refine ⟨last, List.intercalate_singleton, ?_⟩
        rw [isTrivial, Bool.or_eq_true, decide_eq_true_eq, decide_eq_true_eq] at hlast
        obtain rfl | rfl := hlast
        · exact nofun
        · exact lt_of_mem_head? (by decide) []
      · obtain ⟨tail, htail, hhead⟩ := ih
        refine ⟨tail ++ slash :: last, ?_, ?_⟩
        · rw [intercalate_concat hfront, htail, List.append_assoc]
        · cases tail with
          | nil => exact lt_of_mem_head? (by decide) last
          | cons b tail => exact hhead

theorem exists_kept_append (root : Path) :
    ∃ tail, root.bytes = root.kept.bytes ++ tail ∧ ∀ b ∈ tail.head?, b < 0x80 := by
  obtain ⟨tail, htail, hhead⟩ := exists_trim_append (root.split.2.splitOn slash)
  refine ⟨tail, ?_, hhead⟩
  rw [kept, List.append_assoc, ← htail, List.intercalate_splitOn, split_append]

/-- A component `.` at the end is skipped. -/
theorem kept_concat_dot {front : List UInt8} (h : front ≠ []) :
    (⟨front ++ [slash, dot]⟩ : Path).kept = (⟨front⟩ : Path).kept := by
  have hsplit : (below ⟨front⟩ ⟨[dot]⟩).split = _ := split_below h
  rw [kept, show (⟨front ++ [slash, dot]⟩ : Path) = below ⟨front⟩ ⟨[dot]⟩ from rfl, hsplit,
    List.splitOn_append_cons_self]
  show (⟨_ ++ List.intercalate [slash] (trim (_ ++ [[dot]]))⟩ : Path) = _
  rw [trim_append_of_isTrivial (by decide)]
  rfl

/-- A root that ends in a component `.` is cut short. -/
theorem exists_kept_append_of_dot (h : [slash, dot] <:+ root.bytes) :
    ∃ tail, root.bytes = root.kept.bytes ++ tail ∧ tail ≠ [] ∧ ∀ b ∈ tail.head?, b < 0x80 := by
  obtain ⟨front, hbytes⟩ := h
  obtain ⟨bytes⟩ := root
  subst hbytes
  by_cases hfront : front = []
  · subst hfront
    exact ⟨[dot], rfl, List.cons_ne_nil dot [], lt_of_mem_head? (by decide) []⟩
  · obtain ⟨tail, htail, hhead⟩ := exists_kept_append ⟨front⟩
    refine ⟨tail ++ [slash, dot], ?_, by simp, ?_⟩
    · rw [kept_concat_dot hfront, ← List.append_assoc, ← htail]
    · cases tail with
      | nil => exact lt_of_mem_head? (by decide) [dot]
      | cons b tail => exact hhead

/-! ## A plain path on its own -/

theorem IsPlain.bytes_ne_nil (hp : p.IsPlain) : p.bytes ≠ [] := by
  intro h
  have hnil : [] ∈ p.steps := by
    rw [steps, h]
    exact List.mem_singleton.mpr rfl
  exact ne_nil_of_isTrivial (hp [] hnil).1 rfl

/-- A plain path has no lead. -/
theorem IsPlain.split_eq (hp : p.IsPlain) : p.split = ([], p.bytes) := by
  by_cases hmem : slash ∈ p.bytes
  · obtain ⟨first, rest, hbytes, hfirst⟩ := List.eq_append_cons_of_mem hmem
    have hsteps : first ∈ p.steps := by
      rw [steps, hbytes, List.splitOn_append_cons_self_of_not_mem hfirst]
      exact List.mem_cons_self
    have hname := (hp first hsteps).1
    cases first with
    | nil => cases hname
    | cons a first =>
      have ha : a ≠ slash := fun h => hfirst (h ▸ List.mem_cons_self)
      rw [split, hbytes, List.cons_append]
      simp only [if_neg ha]
      rw [if_neg]
      intro h
      cases first with
      | nil =>
        rw [Bool.and_eq_true, decide_eq_true_eq] at h
        rw [h.1] at hname
        cases hname
      | cons b first =>
        have hb : b ≠ slash := fun h => hfirst (h ▸ by simp)
        simp [hb] at h
  · apply split_of_not_mem hmem
    intro hdot
    have hname := (hp [dot] (by rw [steps_of_not_mem hmem, hdot]; exact List.mem_singleton.mpr rfl)).1
    cases hname

theorem IsPlain.body_eq (hp : p.IsPlain) : p.body = p.steps := by
  obtain ⟨front, last, hsteps⟩ := p.exists_steps_eq
  have hlast : isTrivial last = false := (hp last (by rw [hsteps]; simp)).1
  rw [body, hp.split_eq]
  show trim p.steps = p.steps
  rw [hsteps, trim_append_of_not_isTrivial hlast]

theorem IsPlain.fileName_eq (hp : p.IsPlain) {front : List (List UInt8)} {last : List UInt8}
    (hsteps : p.steps = front ++ [last]) : p.fileName = some last :=
  fileName_eq_of_body (hp.body_eq.trans hsteps) (hp last (by rw [hsteps]; simp)).2

theorem IsPlain.parent_nested {front last : List UInt8} (hlast : slash ∉ last)
    (hp : (⟨front ++ slash :: last⟩ : Path).IsPlain) :
    (⟨front ++ slash :: last⟩ : Path).parent = some ⟨front⟩ := by
  obtain ⟨outer, inner, hsteps⟩ := (⟨front⟩ : Path).exists_steps_eq
  have hinner : isTrivial inner = false := (hp.front inner (by rw [hsteps]; simp)).1
  rw [parent_eq_of_body (hp.body_eq.trans (steps_append hlast)), hp.split_eq, hsteps,
    trim_append_of_not_isTrivial hinner, ← hsteps, steps, List.intercalate_splitOn]
  rfl

theorem IsPlain.parent_single (hsingle : slash ∉ p.bytes) (hp : p.IsPlain) :
    p.parent = some ⟨[]⟩ := by
  have hbody : p.body = [] ++ [p.bytes] := hp.body_eq.trans (steps_of_not_mem hsingle)
  rw [parent_eq_of_body hbody, hp.split_eq]
  rfl

/-! ## Entries of any directory -/

section Entries

variable {front last : List UInt8}

/-- A longer entry is one in the directory of a shorter one. -/
theorem join_nested (root : Path) (front last : List UInt8) :
    root.join (front ++ slash :: last) = (root.join front).below ⟨last⟩ := by
  unfold join below
  split <;> simp

theorem isPlain_single (hslash : slash ∉ last) (hlast : isTrivial last = false)
    (hup : last ≠ [dot, dot]) : (⟨last⟩ : Path).IsPlain := by
  intro segment hsegment
  rw [steps_of_not_mem hslash, List.mem_singleton] at hsegment
  exact hsegment ▸ ⟨hlast, hup⟩

/-- The parent of an entry is the directory as it is spelled, if that ends in a name. -/
theorem parent_join_nested {b : UInt8} (hb : front.getLast? = some b) (hbslash : b ≠ slash)
    (hbdot : b ≠ dot) (hslash : slash ∉ last) (hplain : (⟨last⟩ : Path).IsPlain) :
    (root.join (front ++ slash :: last)).parent = some (root.join front) := by
  have hlast : (root.join front).bytes.getLast? = some b := by
    unfold join
    split <;> simp [List.getLast?_append, List.getLast?_cons, hb]
  have hne : (root.join front).bytes ≠ [] := by
    intro h
    rw [h] at hlast
    cases hlast
  have hkept : (root.join front).kept = root.join front := by
    refine kept_eq hne ?_ ?_
    · rw [hlast]
      intro h
      exact hbslash (Option.some.inj h)
    · intro h
      obtain ⟨rest, hrest⟩ := h
      rw [← hrest, List.getLast?_append] at hlast
      exact hbdot (Option.some.inj hlast).symm
  rw [join_nested, parent_below_single hne hslash hplain, hkept]

/-- What follows the last slash of a path is its file name, if it is a name. -/
theorem fileName_append_slash (front : List UInt8) (hslash : slash ∉ last)
    (hplain : (⟨last⟩ : Path).IsPlain) : (⟨front ++ slash :: last⟩ : Path).fileName = some last := by
  have hsteps : (⟨last⟩ : Path).steps = [] ++ [last] := steps_of_not_mem hslash
  by_cases hfront : front = []
  · subst hfront
    obtain ⟨hlast, hup⟩ := hplain last (by rw [hsteps]; simp)
    have hbody : (⟨slash :: last⟩ : Path).body = [] ++ [last] := by
      rw [body, split_slash, List.splitOn_eq_singleton hslash, ← List.nil_append [last]]
      exact trim_append_of_not_isTrivial hlast
    exact fileName_eq_of_body hbody hup
  · have hbelow : (below ⟨front⟩ ⟨last⟩).fileName = some last :=
      fileName_below hfront hplain hsteps
    exact hbelow

/-- An entry of a directory is what the path to it ends in. -/
theorem fileName_join (root : Path) (hslash : slash ∉ last) (hplain : (⟨last⟩ : Path).IsPlain) :
    (root.join last).fileName = some last := by
  unfold join
  split
  · next h =>
    by_cases hroot : root.bytes = []
    · have hsteps : (⟨last⟩ : Path).steps = [] ++ [last] := steps_of_not_mem hslash
      rw [hroot]
      exact hplain.fileName_eq hsteps
    · simp only [hroot, decide_false, Bool.false_or, decide_eq_true_eq] at h
      obtain ⟨front, hfront⟩ := List.getLast?_eq_some_iff.mp h
      rw [hfront, List.append_assoc]
      exact fileName_append_slash front hslash hplain
  · exact fileName_append_slash root.bytes hslash hplain

end Entries

end Path
end ClassIndex
