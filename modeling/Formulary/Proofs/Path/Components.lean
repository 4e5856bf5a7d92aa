import Formulary.Proofs.Path.Shown
import Mathlib.Data.List.DropRight

/-!
Components of paths. A path is known by its first segment and the later ones that count, so paths
with the same components lead to the same place. A name that is joined to a directory is the last
component of the path, and the directory is what is above it.
-/

namespace Formulary.Path

/-- The first of some segments, and those after it that count. -/
def counted : List (List UInt8) → List (List UInt8)
  | [] => []
  | first :: rest => first :: rest.filter (! isIdle ·)

/-- What a path consists of. A path from the root has an empty first component, and the empty path
has no components. -/
def components (path : OsText) : List (List UInt8) :=
  if path.bytes = [] then [] else counted (segments path.bytes)

/-- The name that a last component gives, if it does. -/
def named? (last : List UInt8) : Option OsText :=
  if isIdle last || last = [dot, dot] then none else some ⟨last⟩

/-- Whether a path is that of an entry of a directory. -/
structure Inside (dir name path : OsText) : Prop where
  fileName : fileName? path = some name
  parent : (parent? path).map components = some (components dir)
  components : components path = components dir ++ [name.bytes]

/-! Segments. -/

variable {cs name : List UInt8} {first : List UInt8} {rest : List (List UInt8)}

theorem segments_ne_nil (cs : List UInt8) : segments cs ≠ [] := by
  cases cs with
  | nil => simp [segments]
  | cons c cs =>
    rw [segments]
    split
    · simp
    · split <;> simp

theorem segments_append_slash (xs ys : List UInt8) :
    segments (xs ++ slash :: ys) = segments xs ++ segments ys := by
  induction xs with
  | nil => simp [segments]
  | cons c xs ih =>
    rw [List.cons_append, segments, segments, ih]
    split
    · rfl
    · cases hxs : segments xs with
      | nil => exact absurd hxs (segments_ne_nil xs)
      | cons piece more => rfl

theorem segments_of_not_mem (h : slash ∉ cs) : segments cs = [cs] := by
  induction cs with
  | nil => rfl
  | cons c cs ih =>
    obtain ⟨hc, hcs⟩ := not_or.1 (List.mem_cons.not.1 h)
    rw [segments, if_neg (Ne.symm hc), ih hcs]

theorem slash_not_mem_of_mem_segments {s : List UInt8} (h : s ∈ segments cs) : slash ∉ s := by
  induction cs generalizing s with
  | nil =>
    rw [List.mem_singleton.1 h]
    exact List.not_mem_nil
  | cons c cs ih =>
    rw [segments] at h
    split at h
    · rcases List.mem_cons.1 h with rfl | h
      · exact List.not_mem_nil
      · exact ih h
    · next hc =>
      cases hcs : segments cs with
      | nil => exact absurd hcs (segments_ne_nil cs)
      | cons piece more =>
        rw [hcs] at h ih
        rcases List.mem_cons.1 h with rfl | h
        · have hpiece := ih List.mem_cons_self
          simp [hpiece, Ne.symm hc]
        · exact ih (List.mem_cons_of_mem piece h)

/-- Segments with slashes between them are the path that they were cut from. -/
theorem joined_segments (h : segments cs = first :: rest) :
    first ++ rest.flatMap (slash :: ·) = cs := by
  induction cs generalizing first rest with
  | nil =>
    obtain ⟨rfl, rfl⟩ := List.cons.inj h
    rfl
  | cons c cs ih =>
    cases hcs : segments cs with
    | nil => exact absurd hcs (segments_ne_nil cs)
    | cons piece more =>
      rw [segments, hcs] at h
      split at h
      · next hc =>
        obtain ⟨rfl, rfl⟩ := List.cons.inj h
        rw [List.flatMap_cons, List.nil_append, List.cons_append, ih hcs, hc]
      · obtain ⟨rfl, rfl⟩ := List.cons.inj h
        rw [List.cons_append, ih hcs]

theorem segments_joined (hfirst : slash ∉ first) (hrest : ∀ s ∈ rest, slash ∉ s) :
    segments (first ++ rest.flatMap (slash :: ·)) = first :: rest := by
  induction rest generalizing first with
  | nil => simpa using segments_of_not_mem hfirst
  | cons s rest ih =>
    obtain ⟨hs, hrest⟩ := List.forall_mem_cons.1 hrest
    rw [List.flatMap_cons, List.cons_append, segments_append_slash, segments_of_not_mem hfirst,
      ih hs hrest, List.singleton_append]

/-! Segments at the end that do not count. -/

theorem filter_rdropWhile_isIdle (rest : List (List UInt8)) :
    (rest.rdropWhile isIdle).filter (! isIdle ·) = rest.filter (! isIdle ·) := by
  induction rest using List.reverseRecOn with
  | nil => rfl
  | append_singleton rest s ih =>
    rw [List.rdropWhile_concat]
    split
    · next hs => rw [ih, List.filter_append, List.filter_singleton, hs, Bool.not_true, cond_false,
        List.append_nil]
    · rfl

/-- The last segment that is kept is the last one that counts, or the first of all. -/
theorem getLastD_rdropWhile_isIdle (first : List UInt8) (rest : List (List UInt8)) :
    (rest.rdropWhile isIdle).getLastD first = (counted (first :: rest)).getLastD [] := by
  rw [counted, ← filter_rdropWhile_isIdle]
  have hlast := List.rdropWhile_last_not isIdle rest
  rcases List.eq_nil_or_concat (rest.rdropWhile isIdle) with hnil | ⟨kept, s, hkept⟩
  · rw [hnil]
    rfl
  · simp only [hkept, List.concat_eq_append] at hlast ⊢
    have hs : isIdle s = false := by simpa using hlast
    rw [List.filter_append, List.filter_singleton, hs, Bool.not_false, cond_true,
      ← List.cons_append, List.getLastD_eq_getLast?, List.getLastD_eq_getLast?,
      List.getLast?_concat, List.getLast?_concat]
    rfl

/-- The components of a path tell the name of the file. -/
theorem fileName?_eq (path : OsText) : fileName? path = named? ((components path).getLastD []) := by
  rw [components]
  split
  · next hpath =>
    rw [fileName?, parts, hpath]
    rfl
  · cases hsegments : segments path.bytes with
    | nil => exact absurd hsegments (segments_ne_nil _)
    | cons first rest =>
      have hparts : parts path = (first, rest.rdropWhile isIdle) := by
        rw [parts, hsegments]
        rfl
      rw [← getLastD_rdropWhile_isIdle, fileName?, hparts]
      rfl

/-- Nothing is dropped from a path whose last segment counts. -/
theorem parts_eq {path : OsText} (h : segments path.bytes = first :: rest)
    (hlast : ∀ s ∈ rest.getLast?, isIdle s = false) : parts path = (first, rest) := by
  have hrest : rest.rdropWhile isIdle = rest := by
    rw [List.rdropWhile_eq_self_iff]
    intro hne
    rw [hlast _ (List.getLast_mem_getLast? hne)]
    exact Bool.false_ne_true
  rw [parts, h]
  exact congrArg (first, ·) hrest

theorem mem_segments_of_parts {path : OsText} (h : parts path = (first, rest)) :
    first ∈ segments path.bytes ∧ ∀ s ∈ rest, s ∈ segments path.bytes := by
  rw [parts] at h
  cases hsegments : segments path.bytes with
  | nil => exact absurd hsegments (segments_ne_nil _)
  | cons first' rest' =>
    rw [hsegments] at h
    obtain ⟨rfl, rfl⟩ := Prod.mk.inj h
    refine ⟨List.mem_cons_self, fun s hs => List.mem_cons_of_mem _ ?_⟩
    exact (List.rdropWhile_prefix isIdle rest').subset hs

theorem slash_not_mem_of_fileName? {path n : OsText} (h : fileName? path = some n) :
    slash ∉ n.bytes := by
  cases hparts : parts path with
  | mk first rest =>
    obtain ⟨hfirst, hrest⟩ := mem_segments_of_parts hparts
    have hlast : rest.getLastD first ∈ segments path.bytes := by
      rw [List.getLastD_eq_getLast?]
      cases hrest' : rest.getLast? with
      | none => exact hfirst
      | some s => exact hrest s (List.mem_of_getLast? hrest')
    simp only [fileName?, hparts] at h
    split at h
    · cases h
    · cases h
      exact slash_not_mem_of_mem_segments hlast

/-! Joining a name to a directory. -/

/-- What stands before a name that is joined to a directory. -/
def lead (dir : OsText) : List UInt8 :=
  if dir.bytes = [] ∨ dir.bytes.getLast? = some slash then dir.bytes else dir.bytes ++ [slash]

/-- The segments above a name that is joined to a directory. -/
def above (dir : OsText) : List (List UInt8) := (segments (lead dir)).dropLast

variable {dir name : OsText}

theorem bytes_join (h : slash ∉ name.bytes) : (join dir name).bytes = lead dir ++ name.bytes := by
  have hhead : name.bytes.head? ≠ some slash := fun hhead => h (List.mem_of_mem_head? hhead)
  rw [join, if_neg hhead, lead]
  split <;> simp

/-- What stands before a name is empty or ends with a slash. -/
theorem lead_cases (dir : OsText) :
    (dir.bytes = [] ∧ lead dir = []) ∨ ∃ cs, lead dir = cs ++ [slash] ∧ above dir = segments cs ∧
      ((dir.bytes ≠ [] ∧ dir.bytes = cs) ∨ dir.bytes = cs ++ [slash]) := by
  have habove {cs : List UInt8} (h : lead dir = cs ++ [slash]) : above dir = segments cs := by
    rw [above, h, segments_append_slash]
    exact List.dropLast_concat
  by_cases hdir : dir.bytes = []
  · exact .inl ⟨hdir, by rw [lead, if_pos (.inl hdir), hdir]⟩
  · by_cases hlast : dir.bytes.getLast? = some slash
    · obtain ⟨cs, hcs⟩ := List.getLast?_eq_some_iff.1 hlast
      have hlead : lead dir = cs ++ [slash] := by rw [lead, if_pos (.inr hlast), hcs]
      exact .inr ⟨cs, hlead, habove hlead, .inr hcs⟩
    · have hlead : lead dir = dir.bytes ++ [slash] := by rw [lead, if_neg (by simp [hdir, hlast])]
      exact .inr ⟨dir.bytes, hlead, habove hlead, .inl ⟨hdir, rfl⟩⟩

theorem segments_join (dir : OsText) (h : slash ∉ name.bytes) :
    segments (join dir name).bytes = above dir ++ [name.bytes] := by
  rw [bytes_join h]
  rcases lead_cases dir with ⟨-, hlead⟩ | ⟨cs, hlead, habove, -⟩
  · rw [above, hlead]
    exact segments_of_not_mem h
  · rw [habove, hlead, List.append_assoc, List.singleton_append, segments_append_slash,
      segments_of_not_mem h]

theorem counted_append {s : List UInt8} (segs : List (List UInt8)) (h : isIdle s = false) :
    counted (segs ++ [s]) = counted segs ++ [s] := by
  cases segs with
  | nil => rfl
  | cons first rest => simp [counted, h]

theorem counted_above (dir : OsText) : counted (above dir) = components dir := by
  rcases lead_cases dir with ⟨hdir, hlead⟩ | ⟨cs, -, habove, ⟨hdir, rfl⟩ | hcs⟩
  · rw [above, hlead, components, if_pos hdir]
    rfl
  · rw [habove, components, if_neg hdir]
  · have hdir : dir.bytes ≠ [] := by simp [hcs]
    rw [components, if_neg hdir, habove, hcs, segments_append_slash]
    cases hsegments : segments cs with
    | nil => exact absurd hsegments (segments_ne_nil cs)
    | cons first rest => simp [counted, segments, isIdle]

/-- The parts of a path are its directory and the name that was joined to it. -/
theorem parts_join (dir : OsText) (h : slash ∉ name.bytes) (hidle : isIdle name.bytes = false) :
    (above dir = [] ∧ parts (join dir name) = (name.bytes, [])) ∨
      ∃ first rest, above dir = first :: rest ∧
        parts (join dir name) = (first, rest ++ [name.bytes]) := by
  have hsegments := segments_join dir h
  cases habove : above dir with
  | nil =>
    rw [habove] at hsegments
    exact .inl ⟨rfl, parts_eq hsegments (by simp)⟩
  | cons first rest =>
    rw [habove] at hsegments
    exact .inr ⟨first, rest, rfl, parts_eq hsegments (by simpa using hidle)⟩

theorem fileName?_join (h : slash ∉ name.bytes) (hidle : isIdle name.bytes = false)
    (hparent : name.bytes ≠ [dot, dot]) : fileName? (join dir name) = some name := by
  rcases parts_join dir h hidle with ⟨-, hparts⟩ | ⟨first, rest, -, hparts⟩ <;>
    simp [fileName?, hparts, hidle, hparent]

theorem components_join (h : slash ∉ name.bytes) (hidle : isIdle name.bytes = false) :
    components (join dir name) = components dir ++ [name.bytes] := by
  have hne : (join dir name).bytes ≠ [] := by
    intro hempty
    rw [bytes_join h, List.append_eq_nil_iff] at hempty
    simp [isIdle, hempty.2] at hidle
  rw [components, if_neg hne, segments_join dir h, counted_append _ hidle, counted_above]

/-- Above a name that is joined to a directory is the directory. -/
theorem parent?_join (h : slash ∉ name.bytes) (hidle : isIdle name.bytes = false) :
    (parent? (join dir name)).map components = some (components dir) := by
  have hne : name.bytes ≠ [] := by
    intro hnil
    simp [isIdle, hnil] at hidle
  have hslash : ∀ s ∈ above dir, slash ∉ s := by
    intro s hs
    have hmem : s ∈ segments (join dir name).bytes := by
      rw [segments_join dir h]
      exact List.mem_append_left _ hs
    exact slash_not_mem_of_mem_segments hmem
  rw [← counted_above]
  rcases parts_join dir h hidle with ⟨habove, hparts⟩ | ⟨first, rest, habove, hparts⟩
  · simp [parent?, hparts, hne, habove, counted, components]
  · rw [habove] at hslash ⊢
    obtain ⟨hfirst, hrest⟩ := List.forall_mem_cons.1 hslash
    simp only [parent?, hparts, ne_eq, List.append_eq_nil_iff, List.cons_ne_self, and_false,
      not_false_eq_true, if_true, List.dropLast_concat]
    change Option.map components (if first = [] ∧ rest.rdropWhile isIdle = [] then some ⟨[slash]⟩
      else some (joinSegments first (rest.rdropWhile isIdle))) = _
    have hkept : ∀ s ∈ rest.rdropWhile isIdle, slash ∉ s := fun s hs =>
      hrest s ((List.rdropWhile_prefix isIdle rest).subset hs)
    rw [counted, ← filter_rdropWhile_isIdle]
    split
    · next hroot =>
      rw [hroot.1, hroot.2]
      rfl
    · next hroot =>
      have hsegments := segments_joined hfirst hkept
      have hempty : (joinSegments first (rest.rdropWhile isIdle)).bytes ≠ [] := by
        intro hempty
        have hbytes : first ++ (rest.rdropWhile isIdle).flatMap (slash :: ·) = [] := hempty
        rw [hbytes] at hsegments
        obtain ⟨rfl, hnil⟩ := List.cons.inj hsegments
        exact hroot ⟨rfl, hnil.symm⟩
      rw [Option.map_some, components, if_neg hempty, joinSegments, hsegments]
      rfl

theorem inside_join (h : slash ∉ name.bytes) (hidle : isIdle name.bytes = false)
    (hparent : name.bytes ≠ [dot, dot]) : Inside dir name (join dir name) where
  fileName := fileName?_join h hidle hparent
  parent := parent?_join h hidle
  components := components_join h hidle

/-! Extensions. -/

/-- The name of a file with a stem and an extension. -/
def dotted (stem extension : OsText) : OsText := ⟨stem.bytes ++ dot :: extension.bytes⟩

theorem splitName_append {base ext : List UInt8} (hbase : base ≠ []) (hext : dot ∉ ext) :
    splitName (base ++ dot :: ext) = (base, some ext) := by
  have hrun : ∀ c ∈ ext.reverse, decide (c ≠ dot) = true := by
    intro c hc
    exact decide_eq_true (ne_of_mem_of_not_mem (List.mem_reverse.1 hc) hext)
  obtain ⟨c, more, hmore⟩ := List.exists_cons_of_ne_nil (List.reverse_ne_nil_iff.2 hbase)
  rw [splitName, List.reverse_append, List.reverse_cons, List.append_assoc, List.singleton_append,
    List.takeWhile_append_of_pos hrun, List.dropWhile_append_of_pos hrun]
  simp [← List.reverse_eq_iff.1 hmore, hmore]

/-- A file name with an extension is its stem, a dot and the extension. -/
theorem eq_of_splitName {base ext name : List UInt8} (h : splitName name = (base, some ext)) :
    name = base ++ dot :: ext := by
  have hback : name.reverse.takeWhile (· ≠ dot) ++ name.reverse.dropWhile (· ≠ dot) =
      name.reverse := List.takeWhile_append_dropWhile
  rw [splitName] at h
  split at h
  · cases h
  · cases h
  · next c stem hstem hdrop =>
    obtain ⟨rfl, hext⟩ := Prod.mk.inj h
    obtain rfl : c = dot := by
      have hne : name.reverse.dropWhile (· ≠ dot) ≠ [] := hdrop ▸ List.cons_ne_nil c stem
      have hstop := List.head_dropWhile_not (· ≠ dot) hne
      simp only [hdrop, List.head_cons] at hstop
      exact not_not.1 (of_decide_eq_false hstop)
    rw [← List.reverse_inj, ← hback, hdrop, ← Option.some.inj hext]
    simp

/-- A path with an extension leads to a file that is named by its stem and the extension. -/
theorem exists_of_extension? {path : OsText} {extension : String}
    (h : extension? path = some extension) :
    ∃ stem, stem? path = some stem ∧ fileName? path = some (dotted stem extension) ∧
      slash ∉ stem.bytes := by
  obtain ⟨n, hn, hext⟩ := Option.bind_eq_some_iff.1 h
  cases hsplit : splitName n.bytes with
  | mk base ext =>
    rw [hsplit] at hext
    obtain ⟨ext, rfl, htext⟩ := Option.bind_eq_some_iff.1 hext
    have hbytes := eq_of_splitName hsplit
    refine ⟨⟨base⟩, ?_, ?_, ?_⟩
    · rw [stem?, hn, Option.map_some, hsplit]
    · rw [hn, dotted, ← OsText.eq_ofString_of_text? htext, ← hbytes]
    · have hslash := slash_not_mem_of_fileName? hn
      rw [hbytes] at hslash
      exact fun hmem => hslash (List.mem_append_left _ hmem)

/-- A name with a stem and an extension is that of a file. -/
theorem name_counts {base ext : List UInt8} (hbase : base ≠ []) (hext : ext ≠ []) :
    isIdle (base ++ dot :: ext) = false ∧ base ++ dot :: ext ≠ [dot, dot] := by
  have hlength : 3 ≤ (base ++ dot :: ext).length := by
    have hpos := List.length_pos_iff.2 hbase
    have hpos' := List.length_pos_iff.2 hext
    simp only [List.length_append, List.length_cons]
    omega
  have hne {cs : List UInt8} (hcs : cs.length < 3) : base ++ dot :: ext ≠ cs := by
    rintro rfl
    omega
  refine ⟨?_, hne (by simp)⟩
  rw [isIdle, decide_eq_false (hne (by simp)), decide_eq_false (hne (by simp)), Bool.or_self]

/-- An extension is replaced in the name that was joined to a directory. -/
theorem withExtension_join {stem old new : OsText} (hstem : slash ∉ stem.bytes)
    (hne : stem.bytes ≠ []) (hold : slash ∉ old.bytes ∧ dot ∉ old.bytes ∧ old.bytes ≠ [])
    (hnew : slash ∉ new.bytes) :
    withExtension (join dir (dotted stem old)) new = join dir (dotted stem new) := by
  obtain ⟨hslash, hdot, hold⟩ := hold
  have hdash : slash ≠ dot := by decide
  have hname {e : OsText} (he : slash ∉ e.bytes) : slash ∉ (dotted stem e).bytes := by
    simp [dotted, hstem, he, hdash]
  obtain ⟨hidle, hparent⟩ := name_counts hne hold
  have hfound : stem? (join dir (dotted stem old)) = some stem := by
    rw [stem?, fileName?_join (hname hslash) hidle hparent, Option.map_some, dotted,
      splitName_append hne hdot]
  have hbytes : stem.bytes ++ dot :: new.bytes = (dotted stem new).bytes := rfl
  have hsegments := segments_join dir (hname hnew)
  rw [withExtension, hfound, OsText.mk.injEq]
  rcases parts_join dir (hname hslash) hidle with
    ⟨habove, hparts⟩ | ⟨first, rest, habove, hparts⟩
  · rw [habove] at hsegments
    simp [hparts, hbytes, ← joined_segments hsegments]
  · rw [habove] at hsegments
    simp [hparts, hbytes, joinSegments, ← joined_segments hsegments]

end Formulary.Path
