import Mathlib
import Abacus.Shell.Options

/-!
# Arguments

What is documented of the arguments, as assumptions on a parser for them.  The parser of
the program meets these assumptions.
-/

namespace Abacus

namespace Shell

/-! ## What is documented -/

/-- A text that does not look like an option. -/
def IsPlain (text : String) : Prop :=
  text.toList.head? = some '-' -> text = "-"

def Setting.words : Setting -> List String
  | expression => ["-e", "--eval"]
  | name => ["--name"]
  | prompt => ["--prompt"]

/-- The arguments that give a value to an option: the value is plain, or it is attached. -/
inductive Gives (setting : Setting) (value : String) : List String -> Prop where
  | separate {word : String} (hword : word ∈ setting.words) (h : IsPlain value) :
      Gives setting value [word, value]
  | attached {word : String} (hword : word ∈ setting.words) :
      Gives setting value [word ++ "=" ++ value]
  | joined (h : setting = .expression) (hne : value ≠ "")
      (hequals : value.toList.head? ≠ some '=') : Gives setting value ["-e" ++ value]

namespace Options

def given (o : Options) : Setting -> Option String
  | .expression => o.expression
  | .name => o.name
  | .prompt => o.prompt

def give (o : Options) (value : String) : Setting -> Options
  | .expression => { o with expression := some value }
  | .name => { o with name := some value }
  | .prompt => { o with prompt := some value }

end Options

/-- The arguments that lead from some options to others, in any order and none of a kind
twice.  A file behind two dashes may look like an option. -/
inductive Asks : Options -> List String -> Options -> Prop where
  | done (o : Options) : Asks o [] o
  | tokens {o o' : Options} {args : List String} (h : o.tokens = false)
      (hrest : Asks { o with tokens := true } args o') : Asks o ("--tokens" :: args) o'
  | tree {o o' : Options} {args : List String} (h : o.tree = false)
      (hrest : Asks { o with tree := true } args o') : Asks o ("--ast" :: args) o'
  | setting {o o' : Options} {setting : Setting} {value : String} {words args : List String}
      (hgives : Gives setting value words) (h : o.given setting = none)
      (hrest : Asks (o.give value setting) args o') : Asks o (words ++ args) o'
  | file {o o' : Options} {path : String} {args : List String} (hplain : IsPlain path)
      (hne : path ≠ "") (h : o.file = none) (hrest : Asks { o with file := some path } args o') :
      Asks o (path :: args) o'
  | separated {o : Options} {path : String} (hne : path ≠ "") (h : o.file = none) :
      Asks o ["--", path] { o with file := some path }

/-- A parser that takes the arguments as they are documented. -/
structure Documented (parse : List String -> Except Misuse Request) : Prop where
  taken : ∀ {args o}, Asks .initial args o -> o.file = none ∨ o.expression = none ->
    parse args = .ok (.run o)
  /-- A value that looks like an option cannot stand by itself. -/
  refused : ∀ {before o setting word value} rest, Asks .initial before o ->
    word ∈ Setting.words setting -> ¬ IsPlain value ->
      ∃ m, parse (before ++ word :: value :: rest) = .error m

/-! ## The parser of the program -/

namespace Argument

theorem ofString_of_isPlain {text : String} (h : IsPlain text) : ofString text = plain text := by
  unfold ofString
  split
  case h_1 htext => simp_all [IsPlain]
  case h_2 htext => simp_all [IsPlain]
  case h_3 htext => simp_all [IsPlain]
  case h_4 => rfl

theorem isPlain_of_ofString {text plainText : String} (h : ofString text = plain plainText) :
    IsPlain text := by
  intro hfirst
  obtain ⟨cs, htext⟩ := List.head?_eq_some_iff.mp hfirst
  cases cs with
  | nil => exact String.toList_injective htext
  | cons c cs =>
      unfold ofString at h
      split at h
      case h_2 => split at h <;> cases h
      all_goals simp_all

end Argument

namespace Options

variable {o : Options} {setting : Setting} {value word : String}

theorem takeAny_word (hword : word ∈ setting.words) (o : Options) :
    o.takeAny word = .ok (.next o (.value setting word)) := by
  cases setting with
  | expression =>
      rcases List.mem_pair.mp hword with rfl | rfl
      · rfl
      · rfl
  | name =>
      cases List.mem_singleton.mp hword
      rfl
  | prompt =>
      cases List.mem_singleton.mp hword
      rfl

theorem takeAny_attached (hword : word ∈ setting.words) (o : Options) (value : String) :
    o.takeAny (word ++ "=" ++ value) =
      o.takeSetting setting (word ++ "=" ++ value) (some value) := by
  cases setting with
  | expression =>
      rcases List.mem_pair.mp hword with rfl | rfl
      · simp [takeAny, Argument.ofString, takeShort]
      · simp [takeAny, Argument.ofString, takeLong, Setting.ofName?]
  | name =>
      cases List.mem_singleton.mp hword
      simp [takeAny, Argument.ofString, takeLong, Setting.ofName?]
  | prompt =>
      cases List.mem_singleton.mp hword
      simp [takeAny, Argument.ofString, takeLong, Setting.ofName?]

theorem takeAny_joined (hne : value ≠ "") (hequals : value.toList.head? ≠ some '=')
    (o : Options) : o.takeAny ("-e" ++ value) =
      o.takeSetting .expression ("-e" ++ value) (some value) := by
  have hletter : Argument.ofString ("-e" ++ value) = .short 'e' value.toList := by
    simp [Argument.ofString]
  rw [takeAny, hletter, ← value.ofList_toList]
  cases hcs : value.toList with
  | nil => exact absurd (String.toList_eq_nil_iff.mp hcs) hne
  | cons c cs =>
      have hc : c ≠ '=' := by simpa [hcs] using hequals
      simp [takeShort, hc]

theorem addSetting_of_given (h : o.given setting = none) (option value : String) :
    o.addSetting setting option value = .ok (o.give value setting) := by
  cases setting <;> simp_all [given, addSetting, give]

theorem addFile_of_none {path : String} (hne : path ≠ "") (h : o.file = none) :
    o.addFile path = .ok { o with file := some path } := by
  simp [addFile, hne, h]

theorem takeValue_of_isPlain (h : IsPlain value) (o : Options) (setting : Setting)
    (option : String) :
    o.takeValue setting option value =
      (o.addSetting setting option value).map (.next · .any) := by
  rw [takeValue, Argument.ofString_of_isPlain h]

theorem takeValue_of_not_isPlain (h : ¬ IsPlain value) (o : Options) (setting : Setting)
    (option : String) : o.takeValue setting option value = .error (.noValue option) := by
  unfold takeValue
  split
  case h_1 hplain => exact absurd (Argument.isPlain_of_ofString hplain) h
  case h_2 => rfl

end Options

namespace Request

open Options

variable {o o₁ o' : Options} {mode : Mode} {words args : List String}

theorem further_any {text : String} (h : o.takeAny text = .ok (.next o' mode))
    (rest : List String) : further o .any (text :: rest) = further o' mode rest := by
  rw [further, take, h]

/-- After some arguments it is left to take the rest with other options. -/
def Leads (o : Options) (args : List String) (o' : Options) (mode : Mode) : Prop :=
  ∀ rest, further o .any (args ++ rest) = further o' mode rest

theorem Leads.trans (h : Leads o words o₁ .any) (hrest : Leads o₁ args o' mode) :
    Leads o (words ++ args) o' mode := by
  intro rest
  rw [List.append_assoc, h, hrest]

theorem leads_of_gives {setting : Setting} {value : String} (h : Gives setting value args)
    (hnone : o.given setting = none) : Leads o args (o.give value setting) .any := by
  intro rest
  cases h with
  | separate hword hplain =>
      refine (further_any (takeAny_word hword o) (value :: rest)).trans ?_
      rw [further, take, takeValue_of_isPlain hplain, addSetting_of_given hnone]
      rfl
  | attached hword =>
      apply further_any
      rw [takeAny_attached hword, takeSetting, addSetting_of_given hnone]
      rfl
  | joined h hne hequals =>
      subst h
      apply further_any
      rw [takeAny_joined hne hequals, takeSetting, addSetting_of_given hnone]
      rfl

theorem leads_of_isPlain {path : String} (hplain : IsPlain path) (hne : path ≠ "")
    (h : o.file = none) : Leads o [path] { o with file := some path } .any := by
  apply further_any
  rw [takeAny, Argument.ofString_of_isPlain hplain]
  exact congrArg (Except.map _) (addFile_of_none hne h)

theorem leads_separated {path : String} (hne : path ≠ "") (h : o.file = none) :
    Leads o ["--", path] { o with file := some path } .file := by
  intro rest
  have hseparator : o.takeAny "--" = .ok (.next o .file) := rfl
  refine (further_any hseparator (path :: rest)).trans ?_
  rw [further, take, addFile_of_none hne h]
  rfl

theorem leads_tokens (h : o.tokens = false) :
    Leads o ["--tokens"] { o with tokens := true } .any :=
  further_any (if_neg (by simp [h]))

theorem leads_tree (h : o.tree = false) : Leads o ["--ast"] { o with tree := true } .any :=
  further_any (if_neg (by simp [h]))

/-- Nothing but files can stand behind what is asked for, if two dashes stand there. -/
theorem leads_of_asks (h : Asks o args o') :
    ∃ mode, Leads o args o' mode ∧ (mode = .any ∨ mode = .file ∧ o'.file.isSome) := by
  induction h with
  | done o => exact ⟨.any, fun _ => rfl, .inl rfl⟩
  | tokens h _ ih =>
      obtain ⟨mode, hrest, hmode⟩ := ih
      exact ⟨mode, (leads_tokens h).trans hrest, hmode⟩
  | tree h _ ih =>
      obtain ⟨mode, hrest, hmode⟩ := ih
      exact ⟨mode, (leads_tree h).trans hrest, hmode⟩
  | setting hgives h _ ih =>
      obtain ⟨mode, hrest, hmode⟩ := ih
      exact ⟨mode, (leads_of_gives hgives h).trans hrest, hmode⟩
  | file hplain hne h _ ih =>
      obtain ⟨mode, hrest, hmode⟩ := ih
      exact ⟨mode, (leads_of_isPlain hplain hne h).trans hrest, hmode⟩
  | separated hne h => exact ⟨.file, leads_separated hne h, .inr ⟨rfl, rfl⟩⟩

theorem finish_of_none (hmode : mode = .any ∨ mode = .file)
    (h : o.file = none ∨ o.expression = none) : finish o mode = .ok (.run o) := by
  have hboth : (o.file.isSome && o.expression.isSome) = false := by
    rcases h with h | h <;> simp [h]
  rcases hmode with rfl | rfl
  · simp [finish, hboth]
  · simp [finish, hboth]

theorem documented_ofArguments : Documented ofArguments where
  taken := by
    intro args o hasks hone
    obtain ⟨mode, hleads, hmode⟩ := leads_of_asks hasks
    have hall := hleads []
    rw [List.append_nil] at hall
    rw [ofArguments, hall]
    exact finish_of_none (hmode.imp_right And.left) hone
  refused := by
    intro before o setting word value rest hasks hword hvalue
    obtain ⟨mode, hleads, rfl | ⟨rfl, hfile⟩⟩ := leads_of_asks hasks
    · refine ⟨.noValue word, ?_⟩
      rw [ofArguments, hleads, further_any (takeAny_word hword o), further, take,
        takeValue_of_not_isPlain hvalue]
    · refine ⟨.secondFile word, ?_⟩
      have hne : word ≠ "" := by
        rintro rfl
        cases setting <;> simp [Setting.words] at hword
      rw [ofArguments, hleads, further, take, addFile, if_neg hne, if_pos hfile]
      rfl

end Request

end Shell

end Abacus
