/-
Where longer paths lead.

A path is followed component by component, so that from the place that it leads to a longer
path goes on (`walk_append_cases`).  What a directory has under a name is therefore what is
found at the path of that entry (`find_join`), wherever the directory lies and however its
own path is spelled: a directory in it is listed by its whole path as it is by its entry
(`list_join`).
-/
import ClassIndex.Proofs.Path.Entries

namespace ClassIndex

open ClassIndex.Path

/-- What lies at a name behind the place of a directory is what the directory has under the
name. -/
theorem Listing.at?_concat {top l : Listing} {place : Place}
    (h : top.at? place = some (.directory l)) (name : List UInt8) :
    top.at? (place ++ [name]) = l.lookup name := by
  induction place generalizing top with
  | nil =>
    cases h
    rw [List.nil_append, at?]
    cases l.lookup name with
    | none => rfl
    | some node => cases node <;> rfl
  | cons first rest ih =>
    rw [List.cons_append, at?]
    rw [at?] at h
    split at h
    · exact ih h
    · next node hnode hfirst =>
      split at h
      · cases h
        exact absurd rfl (hnode l)
      · cases h
    · cases h

namespace FileTree

variable {t : FileTree} {links : Nat} {here place : Place} {steps : List (List UInt8)}

/-! ## Going on -/

/-- Steps either fail, whatever comes after them, or lead to a place from which what comes
after them goes on. -/
theorem walk_append_cases (t : FileTree) (links : Nat) (here : Place) (steps : List (List UInt8)) :
    (∃ e, ∀ rest, t.walk links here (steps ++ rest) = .error e) ∨
      ∃ left there, ∀ rest, t.walk links here (steps ++ rest) = t.walk left there rest := by
  fun_induction FileTree.walk t links here steps with
  | case1 links here => exact .inr ⟨links, here, fun rest => rfl⟩
  | case2 links here s rest hdirectory htrivial ih =>
    simpa only [List.cons_append, walk, if_pos hdirectory, if_pos htrivial] using ih
  | case3 links here rest hdirectory htrivial ih =>
    simpa only [List.cons_append, walk, if_pos hdirectory, if_neg htrivial, if_true] using ih
  | case4 links here s rest hdirectory htrivial hup hlong =>
    refine .inl ⟨.nameTooLong, fun more => ?_⟩
    rw [List.cons_append, walk, if_pos hdirectory, if_neg htrivial, if_neg hup, if_pos hlong]
  | case5 links here s rest hdirectory htrivial hup hshort hnode =>
    refine .inl ⟨.notFound, fun more => ?_⟩
    rw [List.cons_append, walk, if_pos hdirectory, if_neg htrivial, if_neg hup, if_neg hshort,
      hnode]
  | case6 here s rest hdirectory htrivial hup hshort target hnode =>
    refine .inl ⟨.tooManyLinks, fun more => ?_⟩
    rw [List.cons_append, walk, if_pos hdirectory, if_neg htrivial, if_neg hup, if_neg hshort,
      hnode]
  | case7 here s rest hdirectory htrivial hup hshort target hnode links ih =>
    simpa only [List.cons_append, List.append_assoc, walk, if_pos hdirectory, if_neg htrivial,
      if_neg hup, if_neg hshort, hnode] using ih
  | case8 links here s rest hdirectory htrivial hup hshort node hlink hnode ih =>
    cases node with
    | link target => exact absurd rfl (hlink target)
    | file content =>
      simpa only [List.cons_append, walk, if_pos hdirectory, if_neg htrivial, if_neg hup,
        if_neg hshort, hnode] using ih
    | directory entries =>
      simpa only [List.cons_append, walk, if_pos hdirectory, if_neg htrivial, if_neg hup,
        if_neg hshort, hnode] using ih
  | case9 links here s rest hdirectory =>
    refine .inl ⟨.notADirectory, fun more => ?_⟩
    rw [List.cons_append, walk, if_neg hdirectory]

/-- A name that the system lets an entry have. -/
structure IsFileName (name : List UInt8) : Prop where
  isName : IsName name
  short : name.length ≤ maxName
  noNul : 0 ∉ name

theorem isFileName_iff {name : List UInt8} :
    IsFileName name ↔ IsName name ∧ name.length ≤ maxName ∧ 0 ∉ name :=
  ⟨fun h => ⟨h.isName, h.short, h.noNul⟩, fun h => ⟨h.1, h.2.1, h.2.2⟩⟩

instance {name : List UInt8} : Decidable (IsFileName name) :=
  decidable_of_iff' _ isFileName_iff

variable {dir : Path} {l sub : Listing} {name : List UInt8} {node : Node}

/-- An entry that is no link is one step away from its directory. -/
theorem walk_entry (hdirectory : t.node? place = some (.directory l)) (hname : IsFileName name)
    (hnode : l.lookup name = some node) (hlink : ∀ target, node ≠ .link target) :
    t.walk links place [name] = .ok (place ++ [name]) := by
  have hentry : t.node? (place ++ [name]) = some node :=
    (Listing.at?_concat hdirectory name).trans hnode
  have hisDirectory : ((t.node? place).map Node.isDirectory).getD false = true := by
    rw [hdirectory]
    rfl
  rw [walk, if_pos hisDirectory, if_neg (by rw [hname.isName.2.1]; decide),
    if_neg hname.isName.2.2, if_neg (Nat.not_lt.mpr hname.short), hentry]
  cases node with
  | link target => exact absurd rfl (hlink target)
  | file content => exact walk.eq_1 ..
  | directory entries => exact walk.eq_1 ..

/-- A step that names nothing stays in its directory. -/
theorem walk_nothing (h : t.walk links here [[]] = .ok place) : here = place := by
  rw [walk] at h
  split at h
  · rw [if_pos (by decide), walk] at h
    exact Except.ok.inj h
  · cases h

/-- The components of an entry's path are those of its directory's, less an empty one at
their end, and its name. -/
theorem exists_steps_join (hdir : dir.bytes ≠ []) (hname : slash ∉ name) :
    ∃ front tail, dir.steps = front ++ tail ∧ (tail = [] ∨ tail = [[]]) ∧
      (dir.join name).steps = front ++ [name] := by
  obtain ⟨bytes⟩ := dir
  by_cases hslash : bytes.getLast? = some slash
  · obtain ⟨front, rfl⟩ := List.getLast?_eq_some_iff.mp hslash
    refine ⟨(⟨front⟩ : Path).steps, [[]], steps_append List.not_mem_nil, .inr rfl, ?_⟩
    have hjoin : (⟨front ++ [slash]⟩ : Path).join name = ⟨front ++ slash :: name⟩ := by
      rw [join, if_pos (by simp), List.append_assoc]
      rfl
    rw [hjoin, steps_append hname]
  · refine ⟨(⟨bytes⟩ : Path).steps, [], (List.append_nil _).symm, .inl rfl, ?_⟩
    rw [join_eq hdir hslash]
    exact steps_append hname

theorem start_join (hdir : dir.bytes ≠ []) (name : List UInt8) (here : Place) :
    (dir.join name).start here = dir.start here := by
  obtain ⟨gap, hbytes⟩ := exists_bytes_join dir name
  rw [start, start, hbytes, List.head?_append_of_ne_nil _ hdir]

theorem zero_not_mem_join (hdir : 0 ∉ dir.bytes) (hname : 0 ∉ name) :
    0 ∉ (dir.join name).bytes := by
  rw [join]
  split
  · rw [List.mem_append, not_or]
    exact ⟨hdir, hname⟩
  · rw [List.mem_append, List.mem_cons, not_or, not_or]
    exact ⟨hdir, by decide, hname⟩

theorem follow_eq_ok_iff {p : Path} :
    t.follow p = .ok place ↔ 0 ∉ p.bytes ∧ p.bytes ≠ [] ∧ p.isTooLong = false ∧
      t.walk maxLinks (p.start t.here) p.steps = .ok place := by
  unfold follow
  split_ifs with hnul hempty hlong
  · exact iff_of_false nofun fun h => h.1 (List.contains_iff_mem.mp hnul)
  · exact iff_of_false nofun fun h => h.2.1 hempty
  · exact iff_of_false nofun fun h => absurd hlong (Bool.eq_false_iff.mp h.2.2.1)
  · have hnul' : 0 ∉ p.bytes := fun h => hnul (List.contains_iff_mem.mpr h)
    exact ⟨fun h => ⟨hnul', hempty, Bool.eq_false_iff.mpr hlong, h⟩, fun h => h.2.2.2⟩

theorem follow_of_isTooLong {p : Path} (hnul : 0 ∉ p.bytes) (hempty : p.bytes ≠ [])
    (hlong : p.isTooLong = true) : t.follow p = .error .nameTooLong := by
  have hnul' : ¬ p.bytes.contains 0 = true := fun h => hnul (List.contains_iff_mem.mp h)
  rw [follow, if_neg hnul', if_neg hempty, if_pos hlong]

/-- The path of an entry that is no link leads to the entry. -/
theorem follow_join (hdir : t.follow dir = .ok place)
    (hdirectory : t.node? place = some (.directory l)) (hname : IsFileName name)
    (hnode : l.lookup name = some node) (hlink : ∀ target, node ≠ .link target)
    (hlength : (dir.join name).isTooLong = false) :
    t.follow (dir.join name) = .ok (place ++ [name]) := by
  obtain ⟨hnul, hempty, -, hwalk⟩ := follow_eq_ok_iff.mp hdir
  refine follow_eq_ok_iff.mpr
    ⟨zero_not_mem_join hnul hname.noNul, (kept_join hname.isName).2.1, hlength, ?_⟩
  obtain ⟨front, tail, hsteps, htail, hsteps'⟩ := exists_steps_join hempty hname.isName.1
  rw [hsteps] at hwalk
  rw [start_join hempty, hsteps']
  rcases t.walk_append_cases maxLinks (dir.start t.here) front with
    ⟨e, hfails⟩ | ⟨left, there, hgoes⟩
  · rw [hfails] at hwalk
    cases hwalk
  · rw [hgoes] at hwalk ⊢
    -- An empty component at the end of the directory's path does not lead on.
    have hthere : there = place := by
      rcases htail with rfl | rfl
      · rw [walk] at hwalk
        exact Except.ok.inj hwalk
      · exact walk_nothing hwalk
    rw [hthere]
    exact walk_entry hdirectory hname hnode hlink

/-! ## Entries by their paths -/

theorem find_eq_ok_iff {p : Path} :
    t.find p = .ok node ↔ ∃ place, t.follow p = .ok place ∧ t.node? place = some node := by
  unfold find
  cases t.follow p with
  | error e => simp [bind, Except.bind]
  | ok place => cases hnode : t.node? place <;> simp [bind, Except.bind, hnode]

theorem list_eq_ok_iff {p : Path} : t.list p = .ok l ↔ t.find p = .ok (.directory l) := by
  unfold list
  cases t.find p with
  | error e => simp [bind, Except.bind]
  | ok node => cases node <;> simp [bind, Except.bind]

/-- What a directory has under a name is found at the path of that entry, if it is no
link. -/
theorem find_join (hlist : t.list dir = .ok l) (hname : IsFileName name)
    (hnode : l.lookup name = some node) (hlink : ∀ target, node ≠ .link target)
    (hlength : (dir.join name).isTooLong = false) : t.find (dir.join name) = .ok node := by
  obtain ⟨place, hfollow, hdirectory⟩ := find_eq_ok_iff.mp (list_eq_ok_iff.mp hlist)
  exact find_eq_ok_iff.mpr ⟨place ++ [name],
    follow_join hfollow hdirectory hname hnode hlink hlength,
    (Listing.at?_concat hdirectory name).trans hnode⟩

/-- A directory in another one is listed by its whole path, unless that is too long. -/
theorem list_join (hlist : t.list dir = .ok l) (hname : IsFileName name)
    (hnode : l.lookup name = some (.directory sub)) :
    t.list (dir.join name) =
      if (dir.join name).isTooLong then .error .nameTooLong else .ok sub := by
  split
  · next hlong =>
    obtain ⟨place, hfollow, -⟩ := find_eq_ok_iff.mp (list_eq_ok_iff.mp hlist)
    obtain ⟨hnul, -, -, -⟩ := follow_eq_ok_iff.mp hfollow
    rw [list, find, follow_of_isTooLong (zero_not_mem_join hnul hname.noNul)
      (kept_join hname.isName).2.1 hlong]
    rfl
  · next hlength =>
    rw [list_eq_ok_iff]
    exact find_join hlist hname hnode nofun (Bool.eq_false_iff.mpr hlength)

end FileTree
end ClassIndex
