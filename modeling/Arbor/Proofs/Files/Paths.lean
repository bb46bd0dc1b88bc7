import Arbor.Files.Tree

/-!
What paths are made of.

`Files.names` are the elements a tree follows. Paths put one after the other have the names of both,
and a clean path spells the names it was cleaned to: `..` in front, if the path is not absolute, and
ordinary names after that. A clean absolute path is therefore the path of a place.
-/

set_option autoImplicit false

namespace Arbor.Files

/-- The elements of a path that are not empty. -/
def names (path : String) : List String := (elements path).filter (!·.isEmpty)

/-- An element that can stand between slashes. -/
def Plain (e : String) : Prop := e ≠ "" ∧ '/' ∉ e.toList

/-- An element that leads one place down. -/
structure Ordinary (e : String) : Prop where
  plain : Plain e
  not_dot : e ≠ "."
  not_up : e ≠ ".."

instance (e : String) : Decidable (Plain e) := inferInstanceAs (Decidable (e ≠ "" ∧ '/' ∉ e.toList))

instance (e : String) : Decidable (Ordinary e) :=
  decidable_of_iff (Plain e ∧ e ≠ "." ∧ e ≠ "..")
    ⟨fun ⟨hplain, hdot, hup⟩ => ⟨hplain, hdot, hup⟩, fun h => ⟨h.plain, h.not_dot, h.not_up⟩⟩

/-! ## Elements -/

@[simp] theorem splitChars_nil (acc : List Char) : splitChars [] acc = [String.ofList acc.reverse] :=
  rfl

@[simp] theorem splitChars_slash (cs acc : List Char) :
    splitChars ('/' :: cs) acc = String.ofList acc.reverse :: splitChars cs [] := rfl

theorem splitChars_other {c : Char} (hc : c ≠ '/') (cs acc : List Char) :
    splitChars (c :: cs) acc = splitChars cs (c :: acc) := by
  rw [splitChars]
  exact hc

theorem splitChars_append (cs ds : List Char) (acc : List Char) :
    splitChars (cs ++ '/' :: ds) acc = splitChars cs acc ++ splitChars ds [] := by
  induction cs generalizing acc with
  | nil => rfl
  | cons c cs ih =>
    by_cases hc : c = '/'
    · subst hc
      simp [ih]
    · simp [splitChars_other hc, ih]

theorem splitChars_plain {cs : List Char} (h : '/' ∉ cs) (acc : List Char) :
    splitChars cs acc = [String.ofList (acc.reverse ++ cs)] := by
  induction cs generalizing acc with
  | nil => simp
  | cons c cs ih =>
    have hc : c ≠ '/' := fun hc => h (hc ▸ List.mem_cons_self)
    have hcs : '/' ∉ cs := fun hcs => h (List.mem_cons_of_mem _ hcs)
    simp [splitChars_other hc, ih hcs]

theorem not_mem_splitChars {cs : List Char} {acc : List Char} (hacc : '/' ∉ acc) :
    ∀ e ∈ splitChars cs acc, '/' ∉ e.toList := by
  induction cs generalizing acc with
  | nil => simpa using hacc
  | cons c cs ih =>
    by_cases hc : c = '/'
    · subst hc
      simp only [splitChars_slash, List.mem_cons]
      rintro e (rfl | he)
      · simpa using hacc
      · exact ih (by simp) e he
    · have hacc' : '/' ∉ c :: acc := by simpa [Ne.symm hc] using hacc
      simpa [splitChars_other hc] using ih hacc'

theorem elements_slash (a b : String) : elements (a ++ "/" ++ b) = elements a ++ elements b := by
  have h : (a ++ "/" ++ b).toList = a.toList ++ '/' :: b.toList := by simp
  rw [elements, h, splitChars_append]
  rfl

theorem names_slash (a b : String) : names (a ++ "/" ++ b) = names a ++ names b := by
  rw [names, elements_slash, List.filter_append]
  rfl

theorem elements_plain {e : String} (h : '/' ∉ e.toList) : elements e = [e] := by
  rw [elements, splitChars_plain h]
  simp

theorem Plain.names {e : String} (h : Plain e) : names e = [e] := by
  rw [Files.names, elements_plain h.2]
  simp [h.1]

theorem names_empty : names "" = [] := by decide

theorem names_intercalate {es : List String} (h : ∀ e ∈ es, Plain e) :
    names (String.intercalate "/" es) = es := by
  induction es with
  | nil =>
    rw [String.intercalate_nil]
    exact names_empty
  | cons e es ih =>
    obtain ⟨he, hes⟩ := List.forall_mem_cons.1 h
    cases es with
    | nil => rw [String.intercalate_singleton, he.names]
    | cons e' es =>
      rw [String.intercalate_cons_cons, names_slash, he.names, ih hes, List.singleton_append]

theorem names_top (path : String) : names ("/" ++ path) = names path := by
  have h : "/" ++ path = "" ++ "/" ++ path := by simp
  rw [h, names_slash, names_empty, List.nil_append]

/-! ## Absolute paths -/

theorem isAbsolute_iff {path : String} : isAbsolute path = true ↔ ['/'] <+: path.toList := by
  rw [isAbsolute, String.startsWith_string_iff]
  simp

theorem isAbsolute_append {a : String} (ha : a ≠ "") (b : String) :
    isAbsolute (a ++ b) = isAbsolute a := by
  rw [Bool.eq_iff_iff, isAbsolute_iff, isAbsolute_iff, String.toList_append]
  cases hcs : a.toList with
  | nil => exact absurd (by simpa using hcs) ha
  | cons c cs => simp

theorem Plain.not_absolute {e : String} (h : Plain e) : isAbsolute e = false := by
  rw [Bool.eq_false_iff, Ne, isAbsolute_iff]
  intro hpre
  exact h.2 (hpre.subset List.mem_cons_self)

theorem isAbsolute_top (path : String) : isAbsolute ("/" ++ path) = true := by
  rw [isAbsolute_iff]
  simp

/-! ## Cleaning -/

/-- Elements that cannot be shortened, the last one first. -/
def Tidy (absolute : Bool) : List String → Prop
  | [] => True
  | e :: up => (Ordinary e ∨ (e = ".." ∧ absolute = false ∧ ∀ u ∈ up, u = "..")) ∧ Tidy absolute up

theorem plain_up : Plain ".." := by
  constructor <;> decide

theorem Tidy.plain {absolute : Bool} {es : List String} (h : Tidy absolute es) :
    ∀ e ∈ es, Plain e := by
  induction es with
  | nil => nofun
  | cons e up ih =>
    refine List.forall_mem_cons.2 ⟨?_, ih h.2⟩
    obtain he | ⟨rfl, -⟩ := h.1
    · exact he.plain
    · exact plain_up

theorem Tidy.ordinary {es : List String} (h : Tidy true es) : ∀ e ∈ es, Ordinary e := by
  induction es with
  | nil => nofun
  | cons e up ih =>
    refine List.forall_mem_cons.2 ⟨?_, ih h.2⟩
    obtain he | ⟨-, hfalse, -⟩ := h.1
    · exact he
    · cases hfalse

/-- Elements in the order they are followed: upward as long as need be, and then only down. -/
def UpThenDown : List String → Prop
  | [] => True
  | e :: es => (e = ".." ∧ UpThenDown es) ∨ ∀ x ∈ e :: es, Ordinary x

theorem UpThenDown.tail {e : String} {es : List String} (h : UpThenDown (e :: es)) :
    UpThenDown es := by
  obtain ⟨-, hes⟩ | hall := h
  · exact hes
  · cases es with
    | nil => trivial
    | cons x es => exact .inr fun y hy => hall y (List.mem_cons_of_mem _ hy)

theorem UpThenDown.down {es : List String} (h : UpThenDown es) {e : String} (he : Ordinary e) :
    UpThenDown (es ++ [e]) := by
  induction es with
  | nil => exact .inr (by simpa using he)
  | cons x es ih =>
    obtain ⟨rfl, hes⟩ | hall := h
    · exact .inl ⟨rfl, ih hes⟩
    · refine .inr fun y hy => ?_
      obtain hy | hy : y ∈ x :: es ∨ y ∈ [e] := List.mem_append.1 hy
      · exact hall y hy
      · rwa [List.mem_singleton.1 hy]

theorem upThenDown_up {es : List String} (h : ∀ e ∈ es, e = "..") : UpThenDown es := by
  induction es with
  | nil => trivial
  | cons e es ih =>
    obtain ⟨rfl, hes⟩ := List.forall_mem_cons.1 h
    exact .inl ⟨rfl, ih hes⟩

theorem Tidy.upThenDown {absolute : Bool} {es : List String} (h : Tidy absolute es) :
    UpThenDown es.reverse := by
  induction es with
  | nil => trivial
  | cons e up ih =>
    obtain he | ⟨rfl, -, hup⟩ := h.1
    · rw [List.reverse_cons]
      exact (ih h.2).down he
    · apply upThenDown_up
      intro x hx
      obtain rfl | hx := List.mem_cons.1 (List.mem_reverse.1 hx)
      · rfl
      · exact hup x hx

theorem walk_empty (absolute : Bool) (up : List String) : walk absolute up "" = up := rfl

theorem walk_ordinary (absolute : Bool) (up : List String) {e : String} (h : Ordinary e) :
    walk absolute up e = e :: up := by
  have hempty : e.isEmpty = false := by simpa using h.plain.1
  simp [walk, hempty, h.not_dot, h.not_up]

theorem walk_tidy {absolute : Bool} {up : List String} (h : Tidy absolute up) {e : String}
    (he : '/' ∉ e.toList) : Tidy absolute (walk absolute up e) := by
  by_cases hempty : e = ""
  · rwa [hempty, walk_empty]
  by_cases hdot : e = "."
  · rwa [hdot]
  by_cases hup : e = ".."
  · subst hup
    cases up with
    | nil =>
      cases absolute with
      | true => trivial
      | false => exact ⟨.inr ⟨rfl, rfl, nofun⟩, trivial⟩
    | cons last rest =>
      by_cases hlast : last = ".."
      · subst hlast
        obtain hord | ⟨-, habs, hall⟩ := h.1
        · exact absurd rfl hord.not_up
        · exact ⟨.inr ⟨rfl, habs, List.forall_mem_cons.2 ⟨rfl, hall⟩⟩, h⟩
      · have hwalk : walk absolute (last :: rest) ".." = rest := by
          change (if last == ".." then _ else rest) = rest
          simp [hlast]
        rw [hwalk]
        exact h.2
  · have hord : Ordinary e := ⟨⟨hempty, he⟩, hdot, hup⟩
    rw [walk_ordinary absolute up hord]
    exact ⟨.inl hord, h⟩

theorem foldl_walk_tidy {absolute : Bool} {es up : List String} (h : Tidy absolute up)
    (hes : ∀ e ∈ es, '/' ∉ e.toList) : Tidy absolute (es.foldl (walk absolute) up) := by
  induction es generalizing up with
  | nil => exact h
  | cons e es ih =>
    obtain ⟨he, hes⟩ := List.forall_mem_cons.1 hes
    exact ih (walk_tidy h he) hes

theorem foldl_walk_reverse {absolute : Bool} {up : List String} (h : Tidy absolute up) :
    up.reverse.foldl (walk absolute) [] = up := by
  induction up with
  | nil => rfl
  | cons e up ih =>
    rw [List.reverse_cons, List.foldl_append, ih h.2, List.foldl_cons, List.foldl_nil]
    obtain hord | ⟨rfl, rfl, hall⟩ := h.1
    · exact walk_ordinary absolute up hord
    · cases up with
      | nil => rfl
      | cons u up =>
        obtain rfl := hall u List.mem_cons_self
        rfl

theorem foldl_walk_names (absolute : Bool) (path : String) (up : List String) :
    (elements path).foldl (walk absolute) up = (names path).foldl (walk absolute) up := by
  unfold names
  induction elements path generalizing up with
  | nil => rfl
  | cons e es ih =>
    by_cases he : e = ""
    · subst he
      rw [List.foldl_cons, walk_empty, ih]
      rfl
    · rw [List.filter_cons_of_pos (by simpa using he), List.foldl_cons, List.foldl_cons, ih]

theorem cleanElements_eq (path : String) :
    cleanElements path = ((names path).foldl (walk (isAbsolute path)) []).reverse := by
  rw [cleanElements, foldl_walk_names]

theorem cleanElements_tidy (path : String) :
    Tidy (isAbsolute path) (cleanElements path).reverse := by
  rw [cleanElements, List.reverse_reverse]
  exact foldl_walk_tidy trivial (not_mem_splitChars (by simp))

theorem cleanElements_plain (path : String) : ∀ e ∈ cleanElements path, Plain e := fun e he =>
  (cleanElements_tidy path).plain e (List.mem_reverse.2 he)

theorem cleanElements_of_names {path : String} {up : List String} (h : names path = up.reverse)
    (hup : Tidy (isAbsolute path) up) : cleanElements path = up.reverse := by
  rw [cleanElements_eq, h, foldl_walk_reverse hup]

theorem clean_absolute {path : String} (h : isAbsolute path = true) :
    clean path = Place.path (cleanElements path).reverse := by
  simp [clean, h, Place.path]

theorem intercalate_ne_empty {e : String} (he : Plain e) (es : List String) :
    String.intercalate "/" (e :: es) ≠ "" := by
  cases es with
  | nil =>
    rw [String.intercalate_singleton]
    exact he.1
  | cons e' es =>
    rw [String.intercalate_cons_cons]
    simp

theorem clean_relative {path : String} (h : isAbsolute path = false)
    (hne : cleanElements path ≠ []) :
    clean path = String.intercalate "/" (cleanElements path) := by
  have hplain := cleanElements_plain path
  cases hes : cleanElements path with
  | nil => exact absurd hes hne
  | cons e es =>
    rw [hes] at hplain
    have hjoined := intercalate_ne_empty (hplain e List.mem_cons_self) es
    simp [clean, h, hes, hjoined]

theorem names_path {p : Place} (h : ∀ e ∈ p, Plain e) : names p.path = p.reverse := by
  rw [Place.path, names_top, names_intercalate fun e he => h e (List.mem_reverse.1 he)]

theorem isAbsolute_path (p : Place) : isAbsolute p.path = true := isAbsolute_top _

theorem names_clean {path : String} (h : isAbsolute path = true ∨ cleanElements path ≠ []) :
    names (clean path) = cleanElements path := by
  cases habs : isAbsolute path with
  | true =>
    rw [clean_absolute habs, names_path (cleanElements_tidy path).plain, List.reverse_reverse]
  | false =>
    rw [clean_relative habs (h.resolve_left (by simp [habs])),
      names_intercalate (cleanElements_plain path)]

theorem isAbsolute_clean (path : String) : isAbsolute (clean path) = isAbsolute path := by
  cases habs : isAbsolute path with
  | true => rw [clean_absolute habs, isAbsolute_path]
  | false =>
    have hplain := cleanElements_plain path
    cases hes : cleanElements path with
    | nil =>
      have hdot : clean path = "." := by simp [clean, habs, hes]
      rw [hdot]
      exact Plain.not_absolute (by constructor <;> decide)
    | cons e es =>
      rw [hes] at hplain
      have he := hplain e List.mem_cons_self
      rw [clean_relative habs (by simp [hes]), hes]
      cases es with
      | nil =>
        rw [String.intercalate_singleton]
        exact he.not_absolute
      | cons e' es =>
        rw [String.intercalate_cons_cons, String.append_assoc, isAbsolute_append he.1]
        exact he.not_absolute

theorem cleanElements_clean {path : String} (h : isAbsolute path = true ∨ cleanElements path ≠ []) :
    cleanElements (clean path) = cleanElements path := by
  have hnames : names (clean path) = (cleanElements path).reverse.reverse := by
    rw [names_clean h, List.reverse_reverse]
  rw [cleanElements_of_names hnames, List.reverse_reverse]
  rw [isAbsolute_clean]
  exact cleanElements_tidy path

/-- A clean path is spelled as its elements are cleaned. -/
theorem names_clean_self {path : String} (h : cleanElements (clean path) ≠ []) :
    names (clean path) = cleanElements (clean path) := by
  have hpath : isAbsolute path = true ∨ cleanElements path ≠ [] := by
    refine Decidable.or_iff_not_imp_left.2 fun habs hnil => h ?_
    have hdot : clean path = "." := by simp [clean, habs, hnil]
    rw [hdot]
    decide
  rw [names_clean hpath, cleanElements_clean hpath]

/-! ## One path after the other -/

theorem cleanElements_slash {base e : String} (hbase : base ≠ "") (he : Ordinary e) :
    cleanElements (base ++ "/" ++ e) = cleanElements base ++ [e] := by
  have habs : isAbsolute (base ++ "/" ++ e) = isAbsolute base := by
    rw [String.append_assoc, isAbsolute_append hbase]
  rw [cleanElements_eq, cleanElements_eq, habs, names_slash, he.plain.names, List.foldl_append,
    List.foldl_cons, List.foldl_nil, walk_ordinary _ _ he, List.reverse_cons]

theorem join_eq {base : String} (hbase : base ≠ "") (path : String) :
    join base path = clean (base ++ "/" ++ path) := by
  simp [join, hbase]

theorem names_join {base e : String} (hbase : base ≠ "") (he : Ordinary e) :
    names (join base e) = cleanElements base ++ [e] := by
  rw [join_eq hbase, names_clean, cleanElements_slash hbase he]
  rw [cleanElements_slash hbase he]
  simp

theorem cleanElements_join {base e : String} (hbase : base ≠ "") (he : Ordinary e) :
    cleanElements (join base e) = cleanElements base ++ [e] := by
  rw [join_eq hbase, cleanElements_clean, cleanElements_slash hbase he]
  rw [cleanElements_slash hbase he]
  simp

theorem clean_ne_empty (path : String) : clean path ≠ "" := by
  have hplain := cleanElements_plain path
  cases habs : isAbsolute path with
  | true =>
    rw [clean_absolute habs, Place.path]
    simp
  | false =>
    cases hes : cleanElements path with
    | nil => simp [clean, habs, hes]
    | cons e es =>
      rw [hes] at hplain
      rw [clean_relative habs (by simp [hes]), hes]
      exact intercalate_ne_empty (hplain e List.mem_cons_self) es

theorem join_ne_empty {base : String} (hbase : base ≠ "") (path : String) : join base path ≠ "" := by
  rw [join_eq hbase]
  exact clean_ne_empty _

theorem cleanElements_join_empty {base : String} (hbase : base ≠ "")
    (h : cleanElements base ≠ []) : cleanElements (join base "") = cleanElements base := by
  have habs : isAbsolute (base ++ "/" ++ "") = isAbsolute base := by
    rw [String.append_assoc, isAbsolute_append hbase]
  have hsame : cleanElements (base ++ "/" ++ "") = cleanElements base := by
    rw [cleanElements_eq, cleanElements_eq, habs, names_slash, names_empty, List.append_nil]
  rw [join_eq hbase, cleanElements_clean (.inr (hsame ▸ h)), hsame]

theorem isAbsolute_join {base : String} (hbase : base ≠ "") (path : String) :
    isAbsolute (join base path) = isAbsolute base := by
  rw [join_eq hbase, isAbsolute_clean, String.append_assoc, isAbsolute_append hbase]

theorem ne_empty_of_isAbsolute {path : String} (h : isAbsolute path = true) : path ≠ "" := by
  rintro rfl
  revert h
  decide

theorem absolute_eq_path {here : String} (hhere : isAbsolute here = true) (path : String) :
    ∃ p : Place, (∀ e ∈ p, Ordinary e) ∧ absolute here path = p.path := by
  have hclean : ∀ q : String, isAbsolute q = true →
      ∃ p : Place, (∀ e ∈ p, Ordinary e) ∧ clean q = p.path := fun q hq =>
    ⟨_, Tidy.ordinary (hq ▸ cleanElements_tidy q), clean_absolute hq⟩
  unfold absolute
  split
  next h => exact hclean path h
  next h =>
    have hne := ne_empty_of_isAbsolute hhere
    rw [join_eq hne]
    apply hclean
    rw [String.append_assoc, isAbsolute_append hne, hhere]

/-! ## Last elements -/

theorem cleanElements_last {path e : String} {es : List String} (h : names path = es ++ [e])
    (he : Ordinary e) : ∃ fs, cleanElements path = fs ++ [e] := by
  rw [cleanElements_eq, h, List.foldl_append, List.foldl_cons, List.foldl_nil, walk_ordinary _ _ he]
  exact ⟨_, List.reverse_cons⟩

theorem absolute_join {here base e : String} (hhere : isAbsolute here = true) (hbase : base ≠ "")
    (he : Ordinary e) : ∃ p : Place, (∀ x ∈ e :: p, Ordinary x) ∧
      absolute here (join base e) = Place.path (e :: p) := by
  obtain ⟨p, hp, hpath⟩ := absolute_eq_path hhere (join base e)
  obtain ⟨fs, hfs⟩ : ∃ fs, names (absolute here (join base e)) = fs ++ [e] := by
    have hnames := names_join hbase he
    unfold absolute
    split
    next habs =>
      rw [names_clean (.inl habs)]
      exact cleanElements_last hnames he
    next =>
      have hne := ne_empty_of_isAbsolute hhere
      have habs : isAbsolute (here ++ "/" ++ join base e) = true := by
        rw [String.append_assoc, isAbsolute_append hne, hhere]
      have hall : names (here ++ "/" ++ join base e) = (names here ++ cleanElements base) ++ [e] := by
        rw [names_slash, hnames, List.append_assoc]
      rw [join_eq hne, names_clean (.inl habs)]
      exact cleanElements_last hall he
  rw [hpath, names_path fun x hx => (hp x hx).plain] at hfs
  have hlast : p = e :: fs.reverse := by
    rw [← List.reverse_reverse p, hfs, List.reverse_append]
    rfl
  subst hlast
  exact ⟨fs.reverse, hp, hpath⟩

/-- A path is its last element, or something else comes before it. -/
theorem exists_last (path : String) :
    ∃ e, '/' ∉ e.toList ∧ (path = e ∨ ∃ a, path = a ++ "/" ++ e) := by
  have hsplit : path.toList.reverse.takeWhile (· != '/') ++ path.toList.reverse.dropWhile (· != '/') =
      path.toList.reverse := List.takeWhile_append_dropWhile
  have hall : (path.toList.reverse.takeWhile (· != '/')).all (· != '/') = true := List.all_takeWhile
  generalize path.toList.reverse.takeWhile (· != '/') = last at hsplit hall
  have hplain : '/' ∉ (String.ofList last.reverse).toList := by
    rw [String.toList_ofList, List.mem_reverse]
    intro hin
    simpa using List.all_eq_true.1 hall '/' hin
  refine ⟨String.ofList last.reverse, hplain, ?_⟩
  cases hrest : path.toList.reverse.dropWhile (· != '/') with
  | nil =>
    left
    rw [hrest, List.append_nil] at hsplit
    rw [hsplit, List.reverse_reverse, String.ofList_toList]
  | cons c rest =>
    right
    have hc : c = '/' := by
      have hc := List.head?_dropWhile_not (· != '/') path.toList.reverse
      rw [hrest] at hc
      simpa using hc
    refine ⟨String.ofList rest.reverse, String.ext ?_⟩
    rw [hrest, hc] at hsplit
    have hpath := congrArg List.reverse hsplit
    rw [List.reverse_reverse] at hpath
    rw [← hpath]
    simp

/-! ## Paths of places -/

theorem tidy_of_ordinary {absolute : Bool} {es : List String} (h : ∀ e ∈ es, Ordinary e) :
    Tidy absolute es := by
  induction es with
  | nil => trivial
  | cons e es ih =>
    obtain ⟨he, hes⟩ := List.forall_mem_cons.1 h
    exact ⟨.inl he, ih hes⟩

theorem cleanElements_path {p : Place} (hp : ∀ e ∈ p, Ordinary e) :
    cleanElements p.path = p.reverse :=
  cleanElements_of_names (names_path fun e he => (hp e he).plain) (tidy_of_ordinary hp)

theorem absolute_path {p : Place} (hp : ∀ e ∈ p, Ordinary e) (here : String) :
    absolute here p.path = p.path := by
  rw [absolute, if_pos (isAbsolute_path p), clean_absolute (isAbsolute_path p),
    cleanElements_path hp, List.reverse_reverse]

theorem suffix_intercalate (es : List String) (e : String) :
    e.toList <:+ (String.intercalate "/" (es ++ [e])).toList := by
  induction es with
  | nil => simp
  | cons x es ih =>
    rw [List.cons_append, String.intercalate_cons_of_ne_nil (by simp), String.toList_append]
    exact ih.trans (List.suffix_append _ _)

theorem Plain.not_endsWith {e path : String} (he : Plain e) (h : e.toList <:+ path.toList) :
    path.endsWith "/" = false := by
  rw [Bool.eq_false_iff]
  intro hslash
  have hslash : ['/'] <:+ path.toList := by
    have h := String.Slice.endsWith_string_iff.1 hslash
    simpa using h
  have hshort : ['/'].length ≤ e.toList.length := by
    have hne : e.toList ≠ [] := by simpa using he.1
    exact List.length_pos_iff.2 hne
  exact he.2 ((List.suffix_of_suffix_length_le hslash h hshort).subset List.mem_cons_self)

theorem endsWith_path {e : String} {p : Place} (he : Plain e) :
    (Place.path (e :: p)).endsWith "/" = false := by
  refine he.not_endsWith ?_
  rw [Place.path, List.reverse_cons, String.toList_append]
  exact (suffix_intercalate _ e).trans (List.suffix_append _ _)

theorem join_path {e : String} {p : Place} (hp : ∀ x ∈ e :: p, Ordinary x) :
    join p.path e = Place.path (e :: p) := by
  obtain ⟨he, hrest⟩ := List.forall_mem_cons.1 hp
  have hne : p.path ≠ "" := ne_empty_of_isAbsolute (isAbsolute_path p)
  have habs : isAbsolute (p.path ++ "/" ++ e) = true := by
    rw [String.append_assoc, isAbsolute_append hne, isAbsolute_path]
  rw [join_eq hne, clean_absolute habs, cleanElements_slash hne he, cleanElements_path hrest,
    List.reverse_append, List.reverse_reverse]
  rfl

theorem directory_slash {e : String} (he : '/' ∉ e.toList) (a : String) :
    directory (a ++ "/" ++ e) = clean (a ++ "/") := by
  have hall : ∀ c ∈ e.toList.reverse, (c != '/') = true := by
    intro c hc
    have hin : c ∈ e.toList := List.mem_reverse.1 hc
    have hne : c ≠ '/' := fun h => he (h ▸ hin)
    simpa using hne
  have hreverse : (a ++ "/" ++ e).toList.reverse = e.toList.reverse ++ '/' :: a.toList.reverse := by
    simp
  have hdrop : ((a ++ "/" ++ e).toList.reverse.dropWhile (· != '/')).reverse = (a ++ "/").toList := by
    rw [hreverse, List.dropWhile_append_of_pos hall]
    simp
  rw [directory, hdrop, String.ofList_toList]

theorem isAbsolute_front {a e : String} (h : isAbsolute (a ++ "/" ++ e) = true) :
    isAbsolute (a ++ "/") = true := by
  have hwhole : (a ++ "/").toList <+: (a ++ "/" ++ e).toList := by simp
  refine isAbsolute_iff.2 (List.prefix_of_prefix_length_le (isAbsolute_iff.1 h) hwhole ?_)
  simp

/-- What lies at a place lies in the directory above it. -/
theorem directory_path {e : String} {p : Place} (hp : ∀ x ∈ e :: p, Ordinary x) :
    directory (Place.path (e :: p)) = p.path := by
  obtain ⟨he, hrest⟩ := List.forall_mem_cons.1 hp
  have hnames : names (Place.path (e :: p)) = p.reverse ++ [e] := by
    rw [names_path fun x hx => (hp x hx).plain, List.reverse_cons]
  have habs := isAbsolute_path (e :: p)
  obtain ⟨last, hlast, hpath | ⟨a, hpath⟩⟩ := exists_last (Place.path (e :: p))
  · have hslash : '/' ∈ (Place.path (e :: p)).toList :=
      (isAbsolute_iff.1 habs).subset List.mem_cons_self
    exact absurd (hpath ▸ hslash) hlast
  · have hend := endsWith_path (p := p) he.plain
    rw [hpath] at hnames habs hend ⊢
    have hne : last ≠ "" := by
      rintro rfl
      have hslash : (a ++ "/" ++ "").endsWith "/" = true :=
        String.Slice.endsWith_string_iff.2 (by simp)
      cases hend.symm.trans hslash
    rw [names_slash, Plain.names ⟨hne, hlast⟩] at hnames
    obtain ⟨ha, -⟩ := List.append_inj' hnames rfl
    have habove : isAbsolute (a ++ "/") = true := isAbsolute_front habs
    have hplain : names (a ++ "/") = p.reverse := by
      have hempty : a ++ "/" = a ++ "/" ++ "" := by simp
      rw [hempty, names_slash, names_empty, List.append_nil, ha]
    rw [directory_slash hlast, clean_absolute habove,
      cleanElements_of_names hplain (tidy_of_ordinary hrest), List.reverse_reverse]

/-- The directory an absolute path lies in is a place, whether the path is clean or not. -/
theorem directory_absolute {path : String} (h : isAbsolute path = true) :
    ∃ p : Place, (∀ e ∈ p, Ordinary e) ∧ directory path = p.path := by
  obtain ⟨last, hlast, rfl | ⟨a, rfl⟩⟩ := exists_last path
  · exact absurd ((isAbsolute_iff.1 h).subset List.mem_cons_self) hlast
  · have habove : isAbsolute (a ++ "/") = true := isAbsolute_front h
    rw [directory_slash hlast]
    exact ⟨_, Tidy.ordinary (habove ▸ cleanElements_tidy _), clean_absolute habove⟩

/-! ## Places along a path -/

/-- The place a path leads to from another one, if it is cleaned first. -/
def Place.along (w : Place) (path : String) : Place :=
  (cleanElements path).foldl (walk true) (if isAbsolute path then [] else w)

theorem walk_all_ordinary {up : List String} (hup : ∀ x ∈ up, Ordinary x) {e : String}
    (he : Plain e) : ∀ x ∈ walk true up e, Ordinary x := by
  by_cases hdot : e = "."
  · subst hdot
    exact hup
  by_cases hback : e = ".."
  · subst hback
    cases up with
    | nil => exact nofun
    | cons last rest =>
      obtain ⟨hlast, hrest⟩ := List.forall_mem_cons.1 hup
      have hwalk : walk true (last :: rest) ".." = rest := by simp [walk, hlast.not_up]
      rwa [hwalk]
  · have he : Ordinary e := ⟨he, hdot, hback⟩
    rw [walk_ordinary _ _ he]
    exact List.forall_mem_cons.2 ⟨he, hup⟩

theorem Place.along_ordinary {w : Place} (hw : ∀ e ∈ w, Ordinary e) (path : String) :
    ∀ e ∈ w.along path, Ordinary e := by
  have hstart : ∀ e ∈ (if isAbsolute path then [] else w : Place), Ordinary e := by
    split
    · exact nofun
    · exact hw
  have hplain := cleanElements_plain path
  unfold along
  generalize (if isAbsolute path then [] else w : Place) = start at hstart
  generalize cleanElements path = es at hplain
  induction es generalizing start with
  | nil => exact hstart
  | cons e es ih =>
    obtain ⟨he, hes⟩ := List.forall_mem_cons.1 hplain
    exact ih (walk true start e) (walk_all_ordinary hstart he) hes

/-- One more element at the end of cleaned ones leads as far as it does by itself. -/
theorem walk_clean (w : List String) {up : List String} (hup : Tidy false up) {e : String}
    (he : '/' ∉ e.toList) :
    (walk false up e).reverse.foldl (walk true) w = walk true (up.reverse.foldl (walk true) w) e := by
  by_cases hempty : e = ""
  · rw [hempty, walk_empty, walk_empty]
  by_cases hdot : e = "."
  · subst hdot
    rfl
  by_cases hback : e = ".."
  · subst hback
    cases up with
    | nil => rfl
    | cons last rest =>
      obtain hlast | ⟨rfl, -, -⟩ := hup.1
      · have hwalk (absolute : Bool) (rest : List String) :
            walk absolute (last :: rest) ".." = rest := by simp [walk, hlast.not_up]
        rw [hwalk, List.reverse_cons, List.foldl_append, List.foldl_cons, List.foldl_nil,
          walk_ordinary _ _ hlast, hwalk]
      · have hwalk : walk false (".." :: rest) ".." = ".." :: ".." :: rest := rfl
        rw [hwalk, List.reverse_cons, List.foldl_append]
        rfl
  · have hord : Ordinary e := ⟨⟨hempty, he⟩, hdot, hback⟩
    rw [walk_ordinary _ _ hord, List.reverse_cons, List.foldl_append]
    rfl

/-- Cleaning first does not change where a walk ends. -/
theorem foldl_walk_clean (w : List String) {up es : List String} (hup : Tidy false up)
    (hes : ∀ e ∈ es, '/' ∉ e.toList) : (es.foldl (walk false) up).reverse.foldl (walk true) w =
      es.foldl (walk true) (up.reverse.foldl (walk true) w) := by
  induction es generalizing up with
  | nil => rfl
  | cons e es ih =>
    obtain ⟨he, hes⟩ := List.forall_mem_cons.1 hes
    rw [List.foldl_cons, List.foldl_cons, ih (walk_tidy hup he) hes, walk_clean w hup he]

theorem Place.along_join {w : Place} {base e : String} (hbase : base ≠ "") (he : Ordinary e) :
    w.along (join base e) = e :: w.along base := by
  unfold along
  rw [isAbsolute_join hbase, cleanElements_join hbase he, List.foldl_append, List.foldl_cons,
    List.foldl_nil, walk_ordinary _ _ he]

/-- A path made absolute is the path of the place that it leads to. -/
theorem Place.path_along {w : Place} (hw : ∀ e ∈ w, Ordinary e) (path : String) :
    (w.along path).path = absolute w.path path := by
  unfold along absolute
  cases habs : isAbsolute path with
  | true =>
    have htidy : Tidy true (cleanElements path).reverse := habs ▸ cleanElements_tidy path
    have hplace := foldl_walk_reverse htidy
    rw [List.reverse_reverse] at hplace
    rw [if_pos rfl, if_pos rfl, clean_absolute habs, hplace]
  | false =>
    have hne : w.path ≠ "" := ne_empty_of_isAbsolute (isAbsolute_path w)
    have htop : isAbsolute (w.path ++ "/" ++ path) = true := by
      rw [String.append_assoc, isAbsolute_append hne, isAbsolute_path]
    have hslash : '/' ∉ ([] : List Char) := List.not_mem_nil
    have hnames : ∀ e ∈ names path, '/' ∉ e.toList := fun e he =>
      not_mem_splitChars hslash e (List.mem_filter.1 he).1
    have hclean := @foldl_walk_clean w [] _ trivial hnames
    rw [if_neg Bool.false_ne_true, if_neg Bool.false_ne_true, join_eq hne, clean_absolute htop,
      cleanElements_eq (w.path ++ "/" ++ path), htop, List.reverse_reverse, names_slash,
      names_path fun e he => (hw e he).plain, List.foldl_append,
      foldl_walk_reverse (tidy_of_ordinary hw), cleanElements_eq, habs, hclean]
    rfl

end Arbor.Files
