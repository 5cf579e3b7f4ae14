import UrReplay.Files.Path
import UrReplay.Proofs.Text.Split
/-!
# UrReplay.Proofs.Files.Path

What a path names, and what is left of that when its file name is replaced.

Only the pieces of a path that say something matter, its `steps`. A path that `EndsIn` a name has this name
as its last piece, so it is the file name (`EndsIn.fileName?`), and the path in front of it takes the other
steps (`EndsIn.steps_parent`). So a name that replaces another one stands behind the same steps
(`EndsIn.withFileName`), which makes it a name in the same directory (`NameIn.withFileName`).
-/

namespace UrReplay.Path

/-- The pieces that say something. -/
def saying (pieces : List Text) : List Text := pieces.filter (!isIdle ·)

/-- The pieces of a path that say something. -/
def steps (p : Path) : List Text := saying p.pieces

/-- A path ends in a name, behind some steps. -/
def EndsIn (p : Path) (steps : List Text) (name : Text) : Prop :=
  ∃ before, p.pieces = before ++ [name] ∧ saying before = steps

/-- What can be the name of a file. -/
structure IsName (name : Text) : Prop where
  slash_not_mem : '/' ∉ name
  not_idle : isIdle name = false
  ne_up : name ≠ ['.', '.']

variable {p : Path} {name other : Text} {before : List Text}

theorem IsName.ne_nil (h : IsName name) : name ≠ [] := by
  rintro rfl
  exact absurd h.not_idle (by decide)

theorem IsName.of_length (hslash : '/' ∉ name) (hlength : 2 < name.length) : IsName name := by
  refine ⟨hslash, ?_, ?_⟩
  · rw [isIdle, Bool.or_eq_false_iff, beq_eq_false_iff_ne, beq_eq_false_iff_ne]
    constructor <;> rintro rfl <;> exact absurd hlength (by decide)
  · rintro rfl
    exact absurd hlength (by decide)

theorem saying_cons_of_idle {piece : Text} (h : isIdle piece = true) (pieces : List Text) :
    saying (piece :: pieces) = saying pieces := by
  rw [saying, List.filter_cons_of_neg (by rw [h]; decide), saying]

theorem saying_cons_of_not_idle {piece : Text} (h : isIdle piece = false) (pieces : List Text) :
    saying (piece :: pieces) = piece :: saying pieces := by
  rw [saying, List.filter_cons_of_pos (by rw [h]; decide), saying]

/-! ### Steps -/

theorem pieces_slash (t : Text) : pieces ⟨'/' :: t⟩ = [] :: pieces ⟨t⟩ := Text.split_append '/' [] t

theorem pieces_dot_slash (t : Text) : pieces ⟨'.' :: '/' :: t⟩ = ['.'] :: pieces ⟨t⟩ :=
  Text.split_append '/' ['.'] t

theorem steps_slash (t : Text) : steps ⟨'/' :: t⟩ = steps ⟨t⟩ := by
  rw [steps, pieces_slash, saying_cons_of_idle rfl, steps]

theorem steps_dot_slash (t : Text) : steps ⟨'.' :: '/' :: t⟩ = steps ⟨t⟩ := by
  rw [steps, pieces_dot_slash, saying_cons_of_idle rfl, steps]

theorem steps_intercalate {pieces : List Text} (h : ∀ piece ∈ pieces, '/' ∉ piece) :
    steps ⟨['/'].intercalate pieces⟩ = saying pieces := by
  cases pieces with
  | nil => rfl
  | cons piece pieces =>
    rw [steps, Path.pieces, Text.split_intercalate (List.cons_ne_nil piece pieces) h]

/-- A leading dot and what follows it up to the next slash say nothing. -/
theorem steps_dot_intercalate {pieces rest : List Text} (hpieces : pieces <+: [] :: rest)
    (h : ∀ piece ∈ pieces, '/' ∉ piece) : steps ⟨'.' :: ['/'].intercalate pieces⟩ = saying pieces := by
  rcases List.prefix_cons_iff.1 hpieces with rfl | ⟨pieces, rfl, -⟩
  · rfl
  · rw [saying_cons_of_idle rfl]
    cases pieces with
    | nil => rfl
    | cons piece pieces =>
      rw [List.intercalate_cons_cons]
      exact (steps_dot_slash _).trans (steps_intercalate fun s hs => h s (List.mem_cons_of_mem _ hs))

theorem intercalate_prefix {pieces pieces' : List Text} (h : pieces <+: pieces') :
    ['/'].intercalate pieces <+: ['/'].intercalate pieces' := by
  induction pieces generalizing pieces' with
  | nil => exact List.nil_prefix
  | cons piece pieces ih =>
    obtain ⟨more, rfl⟩ := h
    cases pieces with
    | nil =>
      rw [List.intercalate_singleton]
      cases more with
      | nil =>
        have hself : ['/'].intercalate ([piece] ++ []) = piece := by
          rw [List.append_nil, List.intercalate_singleton]
        exact ⟨[], by rw [List.append_nil, hself]⟩
      | cons next more =>
        rw [List.cons_append, List.nil_append, List.intercalate_cons_cons, List.append_assoc]
        exact List.prefix_append piece _
    | cons next pieces =>
      rw [List.cons_append, List.cons_append, List.intercalate_cons_cons, List.intercalate_cons_cons]
      exact (List.prefix_append_right_inj _).2 (ih (List.prefix_append (next :: pieces) more))

theorem saying_dropWhile (pieces : List Text) : saying (pieces.dropWhile isIdle) = saying pieces := by
  induction pieces with
  | nil => rfl
  | cons piece pieces ih =>
    by_cases hidle : isIdle piece = true
    · rw [List.dropWhile_cons_of_pos hidle, saying_cons_of_idle hidle, ih]
    · rw [List.dropWhile_cons_of_neg hidle]

theorem saying_reverse (pieces : List Text) : saying pieces.reverse = (saying pieces).reverse :=
  List.filter_reverse

/-- The text of a path, by its anchor. -/
theorem cutAnchor_cases (p : Path) :
    (∃ rest, p.text = '/' :: rest ∧ p.cutAnchor = (['/'], rest)) ∨
      (p.text = ['.'] ∧ p.cutAnchor = (['.'], [])) ∨
      (∃ rest, p.text = '.' :: '/' :: rest ∧ p.cutAnchor = (['.'], '/' :: rest)) ∨
      p.cutAnchor = ([], p.text) := by
  rw [cutAnchor]
  split
  · rename_i rest h
    exact .inl ⟨rest, h, rfl⟩
  · rename_i h
    exact .inr (.inl ⟨h, rfl⟩)
  · rename_i rest h
    exact .inr (.inr (.inl ⟨rest, h, rfl⟩))
  · exact .inr (.inr (.inr rfl))

/-! ### The name at the end -/

/-- A name put behind a path stands behind its steps. -/
theorem endsIn_join (h : '/' ∉ name) (p : Path) : (p.join name).EndsIn p.steps name := by
  have hname : pieces ⟨name⟩ = [name] := Text.split_of_not_mem h
  have hrelative : name.head? ≠ some '/' := fun hhead => h (List.mem_of_head? hhead)
  rw [join, if_neg hrelative]
  split
  · rename_i hend
    rcases hend with hempty | hslash
    · refine ⟨[], ?_, ?_⟩
      · rw [hempty]
        exact hname
      · rw [steps, pieces, hempty]
        rfl
    · obtain ⟨front, hfront⟩ := List.getLast?_eq_some_iff.1 hslash
      refine ⟨Text.split '/' front, ?_, ?_⟩
      · rw [hfront, List.append_assoc, ← hname]
        exact Text.split_append '/' front name
      · have hpieces : p.pieces = Text.split '/' front ++ [[]] := by
          rw [pieces, hfront]
          exact Text.split_append '/' front []
        rw [steps, hpieces, saying, saying, List.filter_append]
        exact (List.append_nil _).symm
  · exact ⟨p.pieces, hname ▸ Text.split_append '/' p.text name, rfl⟩

theorem join_injective {name' : Text} (h : '/' ∉ name) (h' : '/' ∉ name') {p : Path}
    (hjoin : p.join name = p.join name') : name = name' := by
  have hrelative {t : Text} (ht : '/' ∉ t) : ¬t.head? = some '/' := fun hhead => ht (List.mem_of_head? hhead)
  rw [join, join, if_neg (hrelative h), if_neg (hrelative h')] at hjoin
  split at hjoin
  · exact List.append_cancel_left (Path.mk.inj hjoin)
  · exact (List.cons.inj (List.append_cancel_left (Path.mk.inj hjoin))).2

theorem isAbsolute_join (h : '/' ∉ name) (p : Path) : (p.join name).isAbsolute = p.isAbsolute := by
  have hrelative : name.head? ≠ some '/' := fun hhead => h (List.mem_of_head? hhead)
  have happend (t : Text) (hname : p.text = [] → t.head? ≠ some '/') :
      isAbsolute ⟨p.text ++ t⟩ = p.isAbsolute := by
    rw [isAbsolute, isAbsolute]
    cases htext : p.text with
    | nil => simpa using hname htext
    | cons c rest => rfl
  rw [join, if_neg hrelative]
  split
  · exact happend name fun _ => hrelative
  · rename_i hend
    exact happend ('/' :: name) fun htext => absurd (.inl htext) hend

namespace EndsIn

variable {steps : List Text}

theorem text_ne_nil (h : p.EndsIn steps name) (hname : name ≠ []) : p.text ≠ [] := by
  rintro htext
  obtain ⟨before, hpieces, -⟩ := h
  rw [pieces, htext] at hpieces
  have hlast := congrArg List.getLast? hpieces
  rw [List.getLast?_concat] at hlast
  exact hname (Option.some.inj hlast).symm

/-- The name is still the last piece behind the anchor. -/
theorem split_cutAnchor (h : p.EndsIn steps name) (hname : IsName name) :
    ∃ before, Text.split '/' p.cutAnchor.2 = before ++ [name] ∧ saying before = steps := by
  -- The anchor takes pieces off the front that say nothing, or none.
  obtain ⟨before, hpieces, rfl⟩ := h
  rcases cutAnchor_cases p with ⟨rest, htext, hcut⟩ | ⟨htext, hcut⟩ | ⟨rest, htext, hcut⟩ | hcut
  · rw [pieces, htext] at hpieces
    have hsplit := (pieces_slash rest).symm.trans hpieces
    rw [hcut]
    cases before with
    | nil => exact absurd (List.cons.inj hsplit).1.symm hname.ne_nil
    | cons first before =>
      obtain ⟨rfl, hrest⟩ := List.cons.inj hsplit
      exact ⟨before, hrest, (saying_cons_of_idle rfl before).symm⟩
  · rw [pieces, htext] at hpieces
    have hlast := congrArg List.getLast? hpieces
    rw [List.getLast?_concat] at hlast
    obtain rfl : ['.'] = name := Option.some.inj hlast
    exact absurd hname.not_idle (by decide)
  · rw [pieces, htext] at hpieces
    have hsplit := (pieces_dot_slash rest).symm.trans hpieces
    rw [hcut]
    cases before with
    | nil =>
      obtain rfl : ['.'] = name := (List.cons.inj hsplit).1
      exact absurd hname.not_idle (by decide)
    | cons first before =>
      obtain ⟨rfl, hrest⟩ := List.cons.inj hsplit
      refine ⟨[] :: before, ?_, ?_⟩
      · exact (pieces_slash rest).trans (congrArg _ hrest)
      · rw [saying_cons_of_idle rfl, saying_cons_of_idle rfl]
  · rw [hcut]
    exact ⟨before, hpieces, rfl⟩

theorem piecesFromEnd_eq {t : Text} (hsplit : Text.split '/' t = before ++ [name])
    (hname : IsName name) : piecesFromEnd t = name :: before.reverse := by
  rw [piecesFromEnd, hsplit, List.reverse_append, List.reverse_singleton, List.singleton_append,
    List.dropWhile_cons_of_neg (by rw [hname.not_idle]; decide)]

theorem fileName? (h : p.EndsIn steps name) (hname : IsName name) : p.fileName? = some name := by
  obtain ⟨before, hsplit, -⟩ := h.split_cutAnchor hname
  rw [Path.fileName?, piecesFromEnd_eq hsplit hname]
  exact if_neg hname.ne_up

/-! ### What stands before the name -/

/-- The path in front of a name is the anchor and some of the pieces before the name, which say all that
they say. -/
theorem exists_parent_eq (h : p.EndsIn steps name) (hname : IsName name) :
    ∃ kept, p.parent = ⟨p.cutAnchor.1 ++ ['/'].intercalate kept⟩ ∧
      kept <+: Text.split '/' p.cutAnchor.2 ∧ saying kept = steps := by
  obtain ⟨before, hsplit, rfl⟩ := h.split_cutAnchor hname
  refine ⟨(before.reverse.dropWhile isIdle).reverse, ?_, ?_, ?_⟩
  · rw [parent]
    simp only [piecesFromEnd_eq hsplit hname, List.tail_cons]
  · rw [hsplit]
    have hsuffix := List.reverse_prefix.2 (List.dropWhile_suffix isIdle (l := before.reverse))
    rw [List.reverse_reverse] at hsuffix
    exact hsuffix.trans (List.prefix_append before [name])
  · rw [saying_reverse, saying_dropWhile, saying_reverse, List.reverse_reverse]

theorem steps_parent (h : p.EndsIn steps name) (hname : IsName name) : p.parent.steps = steps := by
  obtain ⟨kept, hparent, hkept, rfl⟩ := h.exists_parent_eq hname
  have hslash : ∀ piece ∈ kept, '/' ∉ piece := fun piece hpiece =>
    Text.not_mem_of_mem_split (hkept.subset hpiece)
  rw [hparent]
  rcases cutAnchor_cases p with ⟨rest, -, hcut⟩ | ⟨-, hcut⟩ | ⟨rest, -, hcut⟩ | hcut
  · rw [hcut]
    exact (steps_slash _).trans (steps_intercalate hslash)
  · rw [hcut] at hkept ⊢
    exact steps_dot_intercalate hkept hslash
  · rw [hcut] at hkept ⊢
    have hsplit : Text.split '/' ('/' :: rest) = [] :: Text.split '/' rest := pieces_slash rest
    exact steps_dot_intercalate (hsplit ▸ hkept) hslash
  · rw [hcut]
    exact steps_intercalate hslash

/-- What stands in front of a name starts at the root if the whole path does. -/
theorem isAbsolute_parent (h : p.EndsIn steps name) (hname : IsName name) :
    p.parent.isAbsolute = p.isAbsolute := by
  obtain ⟨kept, hparent, hkept, -⟩ := h.exists_parent_eq hname
  rw [hparent]
  rcases cutAnchor_cases p with ⟨rest, htext, hcut⟩ | ⟨htext, hcut⟩ | ⟨rest, htext, hcut⟩ | hcut
  · rw [hcut, isAbsolute, isAbsolute, htext]
    rfl
  · rw [hcut, isAbsolute, isAbsolute, htext]
    rfl
  · rw [hcut, isAbsolute, isAbsolute, htext]
    rfl
  · -- Without an anchor what is left begins the path, so it starts as the path does.
    have hroot : p.text.head? ≠ some '/' := by
      intro hhead
      obtain ⟨rest, htext⟩ := List.head?_eq_some_iff.1 hhead
      rw [cutAnchor, htext] at hcut
      exact absurd (congrArg Prod.fst hcut) (List.cons_ne_nil _ _)
    rw [hcut] at hkept ⊢
    have hfront : ['/'].intercalate kept <+: p.text :=
      Text.intercalate_split '/' p.text ▸ intercalate_prefix hkept
    rw [isAbsolute, isAbsolute, List.nil_append, beq_eq_false_iff_ne.2 hroot, beq_eq_false_iff_ne]
    intro hhead
    obtain ⟨rest, hrest⟩ : ∃ rest, ['/'].intercalate kept = '/' :: rest :=
      List.head?_eq_some_iff.1 hhead
    obtain ⟨after, hafter⟩ := hfront
    rw [← hafter, hrest] at hroot
    exact hroot rfl

/-! ### Another name in its place -/

/-- Another name in place of the one that a path ends in stands behind the same steps. -/
theorem withFileName (h : p.EndsIn steps name) (hname : IsName name) (hother : IsName other) :
    (p.withFileName other).EndsIn steps other := by
  have hjoin := endsIn_join hother.slash_not_mem p.parent
  rw [h.steps_parent hname] at hjoin
  rw [Path.withFileName, h.fileName? hname]
  exact hjoin

theorem isAbsolute_withFileName (h : p.EndsIn steps name) (hname : IsName name)
    (hother : IsName other) : (p.withFileName other).isAbsolute = p.isAbsolute := by
  rw [Path.withFileName, h.fileName? hname]
  exact (isAbsolute_join hother.slash_not_mem p.parent).trans (h.isAbsolute_parent hname)

end EndsIn

/-! ### Names in a directory -/

/-- A path is that of a name in a directory: it starts where the path of the directory does, and the name
stands behind the steps of that path. -/
structure NameIn (p directory : Path) (name : Text) : Prop where
  isName : IsName name
  endsIn : p.EndsIn directory.steps name
  isAbsolute_eq : p.isAbsolute = directory.isAbsolute

variable {directory : Path}

theorem nameIn_join (hname : IsName name) (directory : Path) :
    (directory.join name).NameIn directory name :=
  ⟨hname, endsIn_join hname.slash_not_mem directory, isAbsolute_join hname.slash_not_mem directory⟩

namespace NameIn

theorem fileName? (h : p.NameIn directory name) : p.fileName? = some name := h.endsIn.fileName? h.isName

/-- The path of another name in the same directory. -/
theorem withFileName (h : p.NameIn directory name) (hother : IsName other) :
    (p.withFileName other).NameIn directory other :=
  ⟨hother, h.endsIn.withFileName h.isName hother,
    (h.endsIn.isAbsolute_withFileName h.isName hother).trans h.isAbsolute_eq⟩

end NameIn

end UrReplay.Path
