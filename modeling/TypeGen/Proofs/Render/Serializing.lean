import TypeGen.Proofs.Render.Definition
import TypeGen.Proofs.Text.Literal
import TypeGen.Proofs.Text.Splitting
import TypeGen.Render.Code

/-!
Serializing: what generated code does when it writes a value to JSON and reads one from JSON. Its
statements are taken from the lines of the code and their order from the steps around them; where a
line is no statement that is known here, nothing comes of the code.
-/

namespace TypeGen.Text

/-- The text behind a front, if it begins so. -/
def cutFront? (front s : String) : Option String :=
  if front.toList.isPrefixOf s.toList then some (String.ofList (s.toList.drop front.toList.length)) else none

theorem cutFront?_append (front t : String) : cutFront? front (front ++ t) = some t := by
  simp [cutFront?, List.isPrefixOf_iff_prefix]

theorem cutFront?_eq_some {front s t : String} : cutFront? front s = some t ↔ s = front ++ t := by
  refine ⟨fun h => ?_, fun h => h ▸ cutFront?_append front t⟩
  rw [cutFront?] at h
  split at h
  next hfront =>
    obtain ⟨rest, hrest⟩ := List.isPrefixOf_iff_prefix.1 hfront
    have ht := Option.some.inj h
    rw [← String.toList_inj, ← ht, String.toList_append, String.toList_ofList, ← hrest]
    simp
  next => cases h

theorem cutFront?_append_append (common front s : String) :
    cutFront? (common ++ front) (common ++ s) = cutFront? front s := by
  refine Option.ext fun t => ?_
  rw [cutFront?_eq_some, cutFront?_eq_some, String.append_assoc, String.append_right_inj]

theorem cutEnding?_append (t ending : String) : cutEnding? ending (t ++ ending) = some t :=
  cutEnding?_eq_some.2 rfl

end TypeGen.Text

namespace TypeGen.Render.Serial

open TypeGen.Code TypeGen.Spec TypeGen.Text

/-! ### JSON -/

/-- A value that is handed on: a text, or whatever an expression of the code stands for. -/
inductive Datum where
  | text (s : String)
  | value (expression : String)
  deriving DecidableEq, Repr

/-- The text that a piece of code denotes, if it is a literal and nothing else. -/
def literal? (code : String) : Option String := do
  let (s, rest) ← Quoted.read? code
  if rest = "" then some s else none

/-- What a piece of code stands for: a literal stands for its text. -/
def datum (code : String) : Datum :=
  match literal? code with
  | some s => .text s
  | none => .value code

/-- JSON as far as it is written here. The members of an object are listed from the one that was written
last. -/
inductive Tree where
  | null
  | leaf (d : Datum)
  | object (members : List (String × Datum))
  deriving DecidableEq, Repr

namespace Tree

/-- Writes a member; what had its key before is not found any more. -/
def put (key : String) (d : Datum) : Tree → Option Tree
  | null => some (.object [(key, d)])
  | leaf _ => none
  | object members => some (.object ((key, d) :: members))

def at? (key : String) : Tree → Option Datum
  | object members => members.lookup key
  | _ => none

/-- The text of a member or, without a key, of the whole. -/
def text? (key : Option String) (j : Tree) : Option String :=
  match key, j with
  | none, leaf (.text s) => some s
  | some key, j => match j.at? key with
    | some (.text s) => some s
    | _ => none
  | _, _ => none

end Tree

/-! ### Writing -/

/-- The statement `j["key"] = value;`. -/
def assignment? (line : String) : Option (String × Datum) := do
  let rest ← cutFront? "j[" line
  let (key, rest) ← Quoted.read? rest
  let rest ← cutFront? "] = " rest
  let value ← cutEnding? ";" rest
  some (key, datum value)

/-- The statement `j = value;`. -/
def replacement? (line : String) : Option Datum := do
  let rest ← cutFront? "j = " line
  let value ← cutEnding? ";" rest
  some (datum value)

def writeLine (line : String) (j : Tree) : Option Tree :=
  match assignment? line with
  | some (key, d) => j.put key d
  | none => (replacement? line).map .leaf

/-- The cases from the one with a label on. -/
def labelled? (label : String) : List Step → Option (List Step)
  | .case l leaves body :: rest =>
    if l = label then some (.case l leaves body :: rest) else labelled? label rest
  | .default _ _ :: rest => labelled? label rest
  | _ => none

/-- The cases from the default on. -/
def defaulted : List Step → List Step
  | .case _ _ _ :: rest => defaulted rest
  | cases => cases

/-- What is done from a case on: the code of a case that does not leave the switch goes on in the next. -/
def doneFrom : List Step → List Step
  | .case _ leaves body :: rest | .default leaves body :: rest =>
    body ++ if leaves then [] else doneFrom rest
  | _ => []

/-- What a switch does for a label. -/
def doneFor (label : String) (cases : List Step) : List Step :=
  doneFrom ((labelled? label cases).getD (defaulted cases))

def writeSimple (j : Tree) : Step → Option Tree
  | .line s => writeLine s j
  | _ => none

/-- Writing, by lines and switches. The value is known by the labels that it has in the switches over
it. -/
def writeStep (label? : String → Option String) (j : Tree) : Step → Option Tree
  | .switch subject cases => do
    let label ← label? subject
    (doneFor label cases).foldlM writeSimple j
  | step => writeSimple j step

def write (label? : String → Option String) (steps : List Step) : Option Tree :=
  steps.foldlM (writeStep label?) .null

/-! ### Reading -/

/-- What is read: an enumerator, or an object that a constructor makes from its arguments. -/
inductive Reading where
  | named (expression : String)
  | built (params : List Param) (arguments : List Datum)
  deriving DecidableEq, Repr

/-- The declaration of a text that is read from a member or from the whole: its name, and the key. -/
def local? (line : String) : Option (String × Option String) := do
  let rest ← cutFront? "std::string " line
  let name := String.ofList (rest.toList.takeWhile (· ≠ ' '))
  let rest ← cutFront? (name ++ " = j") rest
  if rest = ".get<std::string>();" then some (name, none)
  else
    let rest ← cutFront? ".at(" rest
    let (key, rest) ← Quoted.read? rest
    if rest = ").template get<std::string>();" then some (name, some key) else none

/-- Whether a text that was read is the one that a condition compares it with. -/
def holds? (texts : List (String × String)) (condition : String) : Option Bool :=
  texts.findSome? fun (name, text) => do
    let rest ← cutFront? (name ++ " == ") condition
    let s ← literal? rest
    some (text = s)

/-- The first branch whose condition holds. -/
def branch? (texts : List (String × String)) (otherwise : List Step) :
    List (String × List Step) → Option (List Step)
  | [] => some otherwise
  | (condition, body) :: rest => do
    if ← holds? texts condition then some body else branch? texts otherwise rest

/-- An argument `j.at("key").template get<T>()` for a parameter of type `T const &`, and what stands
behind it. -/
def argument? (j : Tree) (p : Param) (code : String) : Option (Datum × String) := do
  let type ← cutEnding? " const &" p.type
  let rest ← cutFront? "j.at(" code
  let (key, rest) ← Quoted.read? rest
  let rest ← cutFront? (").template get<" ++ type ++ ">()") rest
  let d ← j.at? key
  some (d, rest)

/-- Arguments for parameters, one for each. -/
def arguments? (j : Tree) : List Param → String → Option (List Datum)
  | [], code => if code = "" then some [] else none
  | p :: ps, code => do
    let (d, rest) ← argument? j p code
    let rest ← if ps.isEmpty then some rest else cutFront? ", " rest
    let ds ← arguments? j ps rest
    some (d :: ds)

/-- A value of a type: an enumerator of it, or an object made by the one constructor that takes the
arguments. -/
def returned? (constructors : List (List Param)) (type : String) (j : Tree) (line : String) :
    Option Reading := do
  let code ← cutFront? "return " line
  let code ← cutEnding? ";" code
  let rest ← cutFront? type code
  if (cutFront? "::" rest).isSome then some (.named code)
  else
    let rest ← cutFront? "\x7b" rest
    let rest ← cutEnding? "\x7d" rest
    match constructors.filterMap fun ps => (arguments? j ps rest).map (ps, ·) with
    | [(ps, ds)] => some (.built ps ds)
    | _ => none

/-- Reading, by declarations of texts, chains of conditions and what is returned. -/
def read (constructors : List (List Param)) (type : String) (j : Tree) :
    List (String × String) → List Step → Option Reading
  | texts, .line s :: rest =>
    match local? s with
    | some (name, key) => do
      let text ← j.text? key
      read constructors type j ((name, text) :: texts) rest
    | none => returned? constructors type j s
  | texts, .ifChain arms otherwise :: _ =>
    match branch? texts otherwise arms with
    | some [.line s] => returned? constructors type j s
    | _ => none
  | _, _ => none

/-! ### Code of a spec -/

/-- How the functions of a name are told from all others. -/
def isSerializer (name : String) (f : Function) : Bool := f.isStatic && f.name = name

/-- The static function of a name that the code of a spec defines, if there is one. -/
def serializer? (name : String) (s : Spec) : Option Definition :=
  match (definitionsOf Site.top [] (headerSteps s) ++ definitionsOf Site.top [] (sourceSteps s)).filter
      (isSerializer name ·.function) with
  | [d] => some d
  | _ => none

/-- A function that a type declares and that returns nothing. -/
def isConstructor (m : Mention) : Bool :=
  m.site.owner.isSome && m.function.returns.isNone && !m.defines

/-- The parameters of each constructor that the header of a spec declares, of one without parameters if
it declares none. -/
def constructorsOf (s : Spec) : List (List Param) :=
  match ((mentionsOf Site.top (headerSteps s)).filter isConstructor).map (·.function.params) with
  | [] => [[]]
  | declared => declared

/-- What the code of a spec writes of a value. -/
def written? (s : Spec) (label? : String → Option String) : Option Tree := do
  let d ← serializer? "to_json" s
  write label? d.body

/-- What the code of a spec reads from JSON. -/
def recovered? (s : Spec) (j : Tree) : Option Reading := do
  let d ← serializer? "from_json" s
  let type ← d.function.returns
  read (constructorsOf s) type j [] d.body

/-! ### Statements -/

theorem literal?_literal (s : String) : literal? (Quoted.literal s) = some s := by
  have hread : Quoted.read? (Quoted.literal s) = some (s, "") := by
    simpa using Quoted.read?_literal s ""
  rw [literal?, hread]; rfl

theorem datum_literal (s : String) : datum (Quoted.literal s) = .text s := by
  rw [datum, literal?_literal]

/-- Code that begins with no quote is no literal. -/
theorem datum_eq_value {code : String} (h : code.toList.head? ≠ some '"') :
    datum code = .value code := by
  have hread : Quoted.read? code = none := by
    rw [Quoted.read?]
    split
    next hcode => rw [hcode] at h; exact absurd rfl h
    next => rfl
  rw [datum, literal?, hread]; rfl

theorem assignment?_assign (key value : String) :
    assignment? ("j[" ++ Quoted.literal key ++ "] = " ++ value ++ ";") = some (key, datum value) := by
  simp only [assignment?, String.append_assoc, cutFront?_append, Quoted.read?_literal,
    Option.bind_eq_bind, Option.bind_some]
  rw [cutEnding?_append]; rfl

theorem writeSimple_assignKey (j : Tree) (key value : String) :
    writeSimple j (assignKey key value) = j.put key (datum value) := by
  rw [assignKey, writeSimple, writeLine, assignment?_assign]

theorem writeStep_assignKey (label? : String → Option String) (j : Tree) (key value : String) :
    writeStep label? j (assignKey key value) = j.put key (datum value) :=
  writeSimple_assignKey j key value

theorem writeLine_replace (j : Tree) (s : String) :
    writeLine ("j = " ++ Quoted.literal s ++ ";") j = some (.leaf (.text s)) := by
  have hassign : assignment? ("j = " ++ Quoted.literal s ++ ";") = none := by
    simp [assignment?, cutFront?]
  have hreplace : replacement? ("j = " ++ Quoted.literal s ++ ";") = some (.text s) := by
    simp only [replacement?, String.append_assoc, cutFront?_append, Option.bind_eq_bind,
      Option.bind_some]
    rw [cutEnding?_append, Option.bind_some, datum_literal]
  rw [writeLine, hassign, hreplace]; rfl

theorem writeStep_switch {label? : String → Option String} {subject label : String}
    (hlabel : label? subject = some label) (j : Tree) (cases : List Step) :
    writeStep label? j (.switch subject cases) = (doneFor label cases).foldlM writeSimple j := by
  rw [writeStep, hlabel]; rfl

/-- Assignments end in an object with all their members, the last one first. -/
theorem foldlM_assignKey {f : Tree → Step → Option Tree}
    (hf : ∀ j key value, f j (assignKey key value) = j.put key (datum value)) :
    ∀ (pairs : List (String × String)) (members : List (String × Datum)),
      (pairs.map fun (key, value) => assignKey key value).foldlM f (.object members) =
        some (.object ((pairs.map fun (key, value) => (key, datum value)).reverse ++ members))
  | [], _ => rfl
  | (key, value) :: rest, members => by
    rw [List.map_cons, List.foldlM_cons, hf]
    show (rest.map _).foldlM f (.object ((key, datum value) :: members)) = _
    rw [foldlM_assignKey hf rest]
    simp

theorem lookup_append {members rest : List (String × Datum)} {key : String} {d : Datum}
    (hkeys : (members.map (·.1)).Nodup) (hmem : (key, d) ∈ members) :
    (members ++ rest).lookup key = some d := by
  induction members with
  | nil => cases hmem
  | cons m ms ih =>
    obtain ⟨hm, hms⟩ := List.nodup_cons.1 hkeys
    rw [List.cons_append, List.lookup_cons]
    rcases List.mem_cons.1 hmem with rfl | hmem
    · simp
    · have hkey : key ∈ ms.map (·.1) := List.mem_map.2 ⟨_, hmem, rfl⟩
      have hne : key ≠ m.1 := fun h => hm (show m.1 ∈ ms.map (·.1) from h ▸ hkey)
      rw [beq_eq_false_iff_ne.2 hne]
      exact ih hms hmem

/-! ### Choices -/

section Choices

variable {α : Type} {x : α} {xs : List α}

/-- A switch does what one of the cases with its label says. -/
theorem exists_doneFor_case (label : α → String) (body : α → List Step) (rest : List Step)
    (hx : x ∈ xs) : ∃ y ∈ xs, label y = label x ∧
      doneFor (label x) ((xs.map fun y => .case (label y) true (body y)) ++ rest) = body y := by
  have hfound : ∃ y ∈ xs, label y = label x ∧ ∃ behind,
      labelled? (label x) ((xs.map fun y => .case (label y) true (body y)) ++ rest) =
        some (.case (label y) true (body y) :: behind) := by
    induction xs with
    | nil => cases hx
    | cons y ys ih =>
      rw [List.map_cons, List.cons_append, labelled?]
      by_cases hy : label y = label x
      · exact ⟨y, List.mem_cons_self .., hy, _, if_pos hy⟩
      · have hne : x ≠ y := fun h => hy (congrArg label h.symm)
        obtain ⟨z, hz, hlabel, behind, hfound⟩ := ih ((List.mem_cons.1 hx).resolve_left hne)
        exact ⟨z, List.mem_cons_of_mem _ hz, hlabel, behind, (if_neg hy).trans hfound⟩
  obtain ⟨y, hy, hlabel, behind, hfound⟩ := hfound
  refine ⟨y, hy, hlabel, ?_⟩
  rw [doneFor, hfound]
  exact List.append_nil _

/-- A switch does what its case says, if no other case has its label. -/
theorem doneFor_case (label : α → String) (body : α → List Step) (rest : List Step) (hx : x ∈ xs)
    (hlabel : ∀ y ∈ xs, label y = label x → y = x) :
    doneFor (label x) ((xs.map fun y => .case (label y) true (body y)) ++ rest) = body x := by
  obtain ⟨y, hy, hsame, hdone⟩ := exists_doneFor_case label body rest hx
  rw [hdone, hlabel y hy hsame]

theorem holds?_compare (name text tag : String) :
    holds? [(name, text)] (name ++ " == " ++ Quoted.literal tag) = some (decide (text = tag)) := by
  simp [holds?, cutFront?_append, literal?_literal]

/-- A chain does what the branch of a text says, if no other branch compares with it. -/
theorem branch?_compare (name : String) (tag : α → String) (body : α → List Step)
    (otherwise : List Step) (hx : x ∈ xs) (htag : ∀ y ∈ xs, tag y = tag x → y = x) :
    branch? [(name, tag x)] otherwise
      (xs.map fun y => (name ++ " == " ++ Quoted.literal (tag y), body y)) = some (body x) := by
  induction xs with
  | nil => cases hx
  | cons y ys ih =>
    rw [List.map_cons, branch?, holds?_compare]
    by_cases hy : tag y = tag x
    · rw [htag y (by simp) hy]; simp
    · have hne : x ≠ y := fun h => hy (congrArg tag h.symm)
      have hrest := ih ((List.mem_cons.1 hx).resolve_left hne) fun z hz => htag z (by simp [hz])
      simpa [Ne.symm hy] using hrest

end Choices

/-! ### Arguments -/

theorem argument?_get (j : Tree) (key type name rest : String) :
    argument? j ⟨type ++ " const &", name⟩
      ("j.at(" ++ Quoted.literal key ++ ").template get<" ++ type ++ ">()" ++ rest) =
        (j.at? key).map (·, rest) := by
  simp only [argument?, cutEnding?_append, String.append_assoc, cutFront?_append,
    cutFront?_append_append, Quoted.read?_literal, Option.bind_eq_bind, Option.bind_some]
  cases j.at? key <;> rfl

/-- The argument for a parameter of one type is none for a parameter of another. -/
theorem type_eq_of_arguments? {j : Tree} {key type type' name : String} {ds : List Datum}
    (h : arguments? j [⟨type' ++ " const &", name⟩]
      ("j.at(" ++ Quoted.literal key ++ ").template get<" ++ type ++ ">()") = some ds) :
    type' = type := by
  obtain ⟨⟨d, rest⟩, hargument, h⟩ := Option.bind_eq_some_iff.1 h
  simp only [argument?, cutEnding?_append, String.append_assoc, cutFront?_append,
    cutFront?_append_append, Quoted.read?_literal, Option.bind_eq_bind, Option.bind_some,
    Option.bind_eq_some_iff] at hargument
  obtain ⟨rest', hrest, d', -, heq⟩ := hargument
  cases heq
  have hempty : rest = "" := by
    by_contra hne
    simp [arguments?, hne] at h
  rw [cutFront?_eq_some, hempty, String.append_empty, String.append_left_inj] at hrest
  exact hrest.symm

/-- Arguments are read for as many parameters as there are, in their order. -/
theorem arguments?_get {α : Type} {j : Tree} {key type name : α → String} {d : α → Datum} :
    ∀ {xs : List α}, (∀ x ∈ xs, j.at? (key x) = some (d x)) →
      arguments? j (xs.map fun x => ⟨type x ++ " const &", name x⟩)
        (joinWith ", " (xs.map fun x =>
          "j.at(" ++ Quoted.literal (key x) ++ ").template get<" ++ type x ++ ">()")) =
        some (xs.map d)
  | [], _ => rfl
  | [x], h => by
    have hargument := argument?_get j (key x) (type x) (name x) ""
    rw [String.append_empty, h x (by simp)] at hargument
    rw [List.map_singleton, List.map_singleton, joinWith, String.intercalate_singleton, arguments?,
      hargument]
    rfl
  | x :: y :: rest, h => by
    have ih := @arguments?_get α j key type name d (y :: rest) fun z hz =>
      h z (List.mem_cons_of_mem _ hz)
    have hargument := argument?_get j (key x) (type x) (name x)
    rw [h x (List.mem_cons_self ..)] at hargument
    simp only [List.map_cons, joinWith, String.intercalate_cons_cons] at ih ⊢
    rw [arguments?, String.append_assoc, hargument]
    simp only [Option.map_some, Option.bind_eq_bind, Option.bind_some, List.isEmpty_cons,
      cutFront?_append, Bool.false_eq_true, if_false, ih]

theorem read_return (constructors : List (List Param)) (type : String) (j : Tree)
    (texts : List (String × String)) {line code : String} (hline : line = "return " ++ code)
    (rest : List Step) : read constructors type j texts (.line line :: rest) =
      returned? constructors type j line := by
  have hlocal : local? line = none := by rw [hline]; simp [local?, cutFront?]
  rw [read, hlocal]

theorem read_local (constructors : List (List Param)) (type : String) {j : Tree}
    (texts : List (String × String)) {line name text : String} {key : Option String}
    (hline : local? line = some (name, key)) (hkey : j.text? key = some text) (rest : List Step) :
    read constructors type j texts (.line line :: rest) =
      read constructors type j ((name, text) :: texts) rest := by
  rw [read, hline]
  show (j.text? key).bind _ = _
  rw [hkey]; rfl

theorem read_ifChain (constructors : List (List Param)) (type : String) (j : Tree)
    {texts : List (String × String)} {arms : List (String × List Step)} {otherwise : List Step}
    {line : String} (h : branch? texts otherwise arms = some [.line line]) (rest : List Step) :
    read constructors type j texts (.ifChain arms otherwise :: rest) =
      returned? constructors type j line := by
  rw [read, h]

theorem returned?_built (constructors : List (List Param)) (type : String) (j : Tree) (code : String)
    {ps : List Param} {ds : List Datum}
    (h : (constructors.filterMap fun ps => (arguments? j ps code).map (ps, ·)) = [(ps, ds)]) :
    returned? constructors type j ("return " ++ type ++ "\x7b" ++ code ++ "\x7d;") =
      some (.built ps ds) := by
  have hend : "\x7d;" = "\x7d" ++ ";" := rfl
  have hscope : cutFront? "::" ("\x7b" ++ (code ++ "\x7d")) = none := by simp [cutFront?]
  have hline : "return " ++ type ++ "\x7b" ++ code ++ "\x7d;" =
      "return " ++ ((type ++ ("\x7b" ++ (code ++ "\x7d"))) ++ ";") := by
    rw [hend]; simp only [String.append_assoc]
  simp only [returned?, hline, cutFront?_append, cutEnding?_append, Option.bind_eq_bind,
    Option.bind_some, hscope, h]
  rfl

theorem returned?_named (constructors : List (List Param)) (type : String) (j : Tree)
    (name : String) : returned? constructors type j ("return " ++ (type ++ "::" ++ name) ++ ";") =
      some (.named (type ++ "::" ++ name)) := by
  have hline : "return " ++ (type ++ "::" ++ name) ++ ";" =
      "return " ++ ((type ++ ("::" ++ name)) ++ ";") := by simp only [String.append_assoc]
  rw [returned?, hline]
  simp only [cutFront?_append, cutEnding?_append, Option.bind_eq_bind, Option.bind_some]
  rw [String.append_assoc]; rfl

end TypeGen.Render.Serial
