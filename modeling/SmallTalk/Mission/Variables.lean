import SmallTalk.Data.Json
import SmallTalk.Lib.Fallible

/-!
# Mission — references in a text

A text names a variable as `${name}`, and has `$${` for the literal `${`. It is read from the left,
up to the next `${` each time: once when a definition is checked, and again to put the values in.

* `expand`: the loop of both, given what a name stands for.
* `interpolate_written`: what a text written from literals and variables stands for.
-/

namespace SmallTalk.Mission

open List Fallible

/-- A code and a message. -/
abbrev Refused := String × String

def registeredVariables : List String :=
  ["ST_MISSION", "ST_MISSION_REVISION", "ST_MISSION_RUN", "ST_RUN_GENERATION",
    "ST_ROOT_MISSION_RUN", "ST_ROOT_MISSION_RUN_ID", "ST_WORKSPACE", "ST_REQUESTER", "ST_STEP",
    "ST_STEP_RUN", "ST_ATTEMPT", "ST_ASSIGNEE", "ST_PARENT_STEP_RUN", "ST_GATE", "ST_AGENT",
    "ST_LOOP_ROUND", "ST_LOOP_FEEDBACK", "ST_LOOP_ITEM_ID", "ST_CANDIDATE_INDEX", "loop.round",
    "loop.feedback", "loop.item.id", "candidate.index", "PATH"]

def registeredVariable (name : String) : Bool :=
  registeredVariables.contains name || startsWith "loop.item." name

def unknownVariable (name : String) : Refused :=
  ("unknown-variable", "variable `" ++ name ++ "` is not registered; write `$$\x7b" ++ name ++
    "\x7d` for the literal text")

/-- The text for what is left of a source, when `before` was passed since the last reference. -/
def expand (stands : String → Except Refused String) (before : List Char) :
    List Char → Except Refused (List Char)
  | '$' :: '{' :: tail =>
    if before.getLast? = some '$' then
      (expand stands [] tail).map fun output => before.dropLast ++ ['$', '{'] ++ output
    else match h : tail.dropWhile (· ≠ '}') with
      | [] => .error ("invalid-variable", "a variable reference has no closing brace")
      | _ :: rest => do
        have : rest.length < tail.length := by
          have hle := (dropWhile_sublist (· ≠ '}') (l := tail)).length_le
          rw [h, length_cons] at hle
          omega
        let value ← stands (String.ofList (tail.takeWhile (· ≠ '}')))
        let output ← expand stands [] rest
        .ok (before ++ value.toList ++ output)
  | c :: rest => expand stands (before ++ [c]) rest
  | [] => .ok before
termination_by rest => rest.length

def interpolate (source : String) (bound : String → Option String) : Except Refused String :=
  (expand (fun name =>
    if !registeredVariable name && !startsWith "input." name then .error (unknownVariable name)
    else match (bound name).or
        (if startsWith "loop.item." name then bound "loop.item.*" else none) with
      | some value => .ok value
      | none => .error ("unavailable-variable",
          "variable `" ++ name ++ "` is not available in this phase")) [] source.toList).map
    String.ofList

mutual

/-- The check puts nothing in the place of a reference. -/
def validateVariables (inputNames : List String) : Json → Except Refused Unit
  | .str text => (expand (fun name =>
      if !registeredVariable name && !(stripLeading "input." name).any inputNames.contains then
        .error (unknownVariable name)
      else .ok "") [] text.toList).map fun _ => ()
  | .arr items => validateItems inputNames items
  | .obj members => validateMembers inputNames members
  | _ => .ok ()

def validateItems (inputNames : List String) : List Json → Except Refused Unit
  | [] => .ok ()
  | item :: rest => do
    validateVariables inputNames item
    validateItems inputNames rest

def validateMembers (inputNames : List String) : List (String × Json) → Except Refused Unit
  | [] => .ok ()
  | (_, value) :: rest => do
    validateVariables inputNames value
    validateMembers inputNames rest

end

/-! ### Written texts -/

/-- A literal with each `${` in it escaped. -/
def escape : List Char → List Char
  | '$' :: '{' :: rest => '$' :: '$' :: '{' :: escape rest
  | c :: rest => c :: escape rest
  | [] => []

/-- A literal, and then variables each with the literal after it. -/
def written (first : List Char) : List (String × List Char) → List Char
  | [] => escape first
  | (name, next) :: rest => escape first ++ '$' :: '{' :: (name.toList ++ '}' :: written next rest)

/-- The literals with the values in between. -/
def filled (values : String → String) (first : List Char) : List (String × List Char) → List Char
  | [] => first
  | (name, next) :: rest => first ++ ((values name).toList ++ filled values next rest)

variable {stands : String → Except Refused String} {before literal tail output : List Char}

theorem expand_cons {c : Char} (h : ¬ (c = '$' ∧ tail.head? = some '{')) :
    expand stands before (c :: tail) = expand stands (before ++ [c]) tail := by
  rw [expand]
  rintro rest rfl rfl
  exact h ⟨rfl, rfl⟩

theorem head?_escape : (escape literal).head? = literal.head? := by
  fun_cases escape literal <;> rfl

/-- **An escaped literal** is read as the literal, the last part of it with what follows. -/
theorem expand_escape (stands : String → Except Refused String) (before literal : List Char)
    (htail : tail.head? ≠ some '{') : ∃ front last,
    front ++ last = before ++ literal ∧ ∀ output, expand stands last tail = .ok output →
      expand stands before (escape literal ++ tail) = .ok (front ++ output) := by
  fun_induction escape literal generalizing before with
  | case1 rest ih =>
    obtain ⟨front, last, hparts, hexpand⟩ := ih []
    refine ⟨before ++ ['$', '{'] ++ front, last, by simp [hparts], fun output houtput => ?_⟩
    rw [cons_append, expand_cons (by simp), cons_append, cons_append, expand, if_pos (by simp),
      hexpand output houtput]
    simp [Except.map]
  | case2 c rest hnot ih =>
    obtain ⟨front, last, hparts, hexpand⟩ := ih (before ++ [c])
    refine ⟨front, last, by simp [hparts], fun output houtput => ?_⟩
    rw [cons_append, expand_cons, hexpand output houtput]
    rintro ⟨rfl, hhead⟩
    rw [head?_append, head?_escape] at hhead
    cases rest with
    | nil => exact htail hhead
    | cons d rest => exact hnot rest rfl (by rw [Option.some.inj hhead])
  | case3 => exact ⟨[], before, by simp, fun _ => id⟩

theorem expand_reference {name value : String} (hbefore : before.getLast? ≠ some '$')
    (hname : '}' ∉ name.toList) (hvalue : stands name = .ok value)
    (htail : expand stands [] tail = .ok output) :
    expand stands before ('$' :: '{' :: (name.toList ++ '}' :: tail)) =
      .ok (before ++ value.toList ++ output) := by
  have hne : ∀ c ∈ name.toList, decide (c ≠ '}') = true := fun c hc =>
    decide_eq_true fun heq => hname (heq ▸ hc)
  have hdrop : (name.toList ++ '}' :: tail).dropWhile (· ≠ '}') = '}' :: tail := by
    rw [dropWhile_append_of_pos hne, dropWhile_cons_of_neg (by decide)]
  have htake : (name.toList ++ '}' :: tail).takeWhile (· ≠ '}') = name.toList := by
    rw [takeWhile_append_of_pos hne, takeWhile_cons_of_neg (by decide), append_nil]
  rw [expand, if_neg hbefore]
  split <;> rename_i hrest <;> rw [hdrop] at hrest <;> cases hrest
  rw [htake, String.ofList_toList, hvalue, htail]
  rfl

theorem expand_written (values : String → String) {first : List Char}
    {rest : List (String × List Char)}
    (hdollar : ∀ literal ∈ (first :: rest.map Prod.snd).dropLast, literal.getLast? ≠ some '$')
    (hnames : ∀ name ∈ rest.map Prod.fst, '}' ∉ name.toList ∧ stands name = .ok (values name)) :
    expand stands [] (written first rest) = .ok (filled values first rest) := by
  induction rest generalizing first with
  | nil =>
    obtain ⟨front, last, hparts, hexpand⟩ := @expand_escape [] stands [] first nofun
    rw [written, ← append_nil (escape first), hexpand last (by rw [expand]), hparts]
    rfl
  | cons reference rest ih =>
    obtain ⟨name, next⟩ := reference
    rw [map_cons, dropLast_cons_of_ne_nil (by simp), forall_mem_cons] at hdollar
    rw [map_cons, forall_mem_cons] at hnames
    obtain ⟨front, last, hparts, hexpand⟩ := expand_escape stands [] first
      (show ('$' :: '{' :: (name.toList ++ '}' :: written next rest)).head? ≠ some '{' by simp)
    -- the last part of the literal is empty or ends as it does
    have hlast : last.getLast? ≠ some '$' := fun h => by
      refine hdollar.1 ?_
      rw [← nil_append first, ← hparts, getLast?_append, h]
      rfl
    rw [written, hexpand _ (expand_reference hlast hnames.1.1 hnames.1.2 (ih hdollar.2 hnames.2)),
      filled, append_assoc, ← append_assoc front, hparts]
    rfl

/-- **Interpolation.**  A text written from literals, none of them with a dollar sign before a
variable, and from variables that are registered or declared is accepted; with the variables bound it
gives the literals with the values in between. -/
theorem interpolate_written (inputNames : List String) (bound : String → Option String)
    (values : String → String) (first : List Char) (rest : List (String × List Char))
    (hdollar : ∀ literal ∈ (first :: rest.map Prod.snd).dropLast, literal.getLast? ≠ some '$')
    (hnames : ∀ name ∈ rest.map Prod.fst, '}' ∉ name.toList ∧
      (registeredVariable name = true ∨ ∃ input ∈ inputNames, name = "input." ++ input) ∧
      bound name = some (values name)) :
    validateVariables inputNames (.str (String.ofList (written first rest))) = .ok () ∧
      interpolate (String.ofList (written first rest)) bound =
        .ok (String.ofList (filled values first rest)) := by
  constructor
  · rw [validateVariables, String.toList_ofList, expand_written (fun _ => "") hdollar]
    · rfl
    · intro name hname
      obtain ⟨hbrace, hknown, -⟩ := hnames name hname
      refine ⟨hbrace, if_neg ?_⟩
      rcases hknown with hknown | ⟨input, hinput, rfl⟩
      · simp [hknown]
      · simp [stripLeading, hinput]
  · rw [interpolate, String.toList_ofList, expand_written values hdollar]
    · rfl
    · intro name hname
      obtain ⟨hbrace, hknown, hbound⟩ := hnames name hname
      refine ⟨hbrace, (if_neg ?_).trans (by rw [hbound]; rfl)⟩
      rcases hknown with hknown | ⟨input, -, rfl⟩
      · simp [hknown]
      · simp [startsWith]

/-- A literal with a dollar sign and an escape, a value with a reference in it. -/
theorem interpolate_written_step :
    interpolate "$$${x} ${ST_STEP}$" (fun _ => some "${PATH}") =
      .ok "$${x} ${PATH}$" :=
  (interpolate_written [] (fun _ => some "${PATH}") (fun _ => "${PATH}")
    "$${x} ".toList [("ST_STEP", ['$'])] (by decide) (by decide)).2

end SmallTalk.Mission
