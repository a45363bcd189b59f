import Formula.Proofs.CommandLine.Requests
/-!
# Arguments that are operands

Where an argument stands decides what it is. A parser of arguments is known here by its laws: how it
takes one option before everything else or right behind the symbol, and what ends the options. From them,
options around a symbol set what they set, one by one, and behind the end of the options everything is an
operand as it stands, whatever it looks like.

Results:
* `ArgumentLaws`: what is assumed of a parser.
* `ArgumentLaws.line`: a symbol with options around it.
* `Request.argumentLaws`: the scanner of arguments has the laws.
* `operands_verbatim`: operands behind two hyphens, and behind an ordinary first one.
-/
namespace Formula.CommandLine

/-! ## Arguments -/

/-- The argument does not begin with a hyphen, or is nothing but one. -/
def IsOrdinary (a : String) : Prop := a = "-" ∨ a.toList.head? ≠ some '-'

/-- An option as it is written. -/
inductive Setting where
  /-- The text is the next argument. -/
  | assign (text : String)
  /-- The text is in the same argument. -/
  | attach (text : String)
  | verbose (long : Bool)

namespace Setting

def arguments : Setting → List String
  | .assign text => ["--var", text]
  | .attach text => ["--var=" ++ text]
  | .verbose long => [if long then "--verbose" else "-v"]

def text? : Setting → Option String
  | .assign text | .attach text => some text
  | .verbose _ => none

/-- Whether the option asks for more messages. -/
def isVerbose : Setting → Bool
  | .assign _ | .attach _ => false
  | .verbose _ => true

/-- A text that is an argument of its own does not look like an option. -/
def IsOrdinary : Setting → Prop
  | .assign text => CommandLine.IsOrdinary text
  | .attach _ | .verbose _ => True

/-- Options that can stand together. -/
structure WellFormed (settings : List Setting) : Prop where
  ordinary : ∀ s ∈ settings, s.IsOrdinary
  once : settings.countP isVerbose ≤ 1

end Setting

namespace Request

/-- The request with options before it. -/
def preceded (r : Request) (settings : List Setting) : Request :=
  { r with
    verbose := settings.any Setting.isVerbose || r.verbose
    assignments := settings.filterMap Setting.text? ++ r.assignments }

theorem preceded_cons (r : Request) (s : Setting) (settings : List Setting) :
    (r.preceded settings).preceded [s] = r.preceded (s :: settings) := by
  cases s <;> simp [preceded, Setting.isVerbose, Setting.text?, List.filterMap_cons]

/-- No more than one of the options asks for messages, and none if the request does. -/
def Admits (r : Request) (settings : List Setting) : Prop :=
  settings.countP Setting.isVerbose + r.verbose.toNat ≤ 1

theorem Admits.of_cons {r : Request} {s : Setting} {settings : List Setting}
    (h : r.Admits (s :: settings)) :
    r.Admits settings ∧ (s.isVerbose = true → (r.preceded settings).verbose = false) := by
  unfold Admits at h ⊢
  rw [List.countP_cons] at h
  refine ⟨by omega, fun hs => ?_⟩
  rw [hs, if_pos rfl] at h
  have hnone : settings.countP Setting.isVerbose = 0 := by omega
  have hquiet : r.verbose.toNat = 0 := by omega
  rw [preceded, Bool.or_eq_false_iff]
  exact ⟨by simpa using hnone, by simpa using hquiet⟩

/-- The request for an application with options. -/
def applying (settings : List Setting) (symbol : String) (operands : List String) : Request :=
  ⟨false, settings.any Setting.isVerbose, settings.filterMap Setting.text?, some symbol, operands⟩

theorem preceded_applying (before after : List Setting) (symbol : String) (operands : List String) :
    (applying after symbol operands).preceded before = applying (before ++ after) symbol operands := by
  simp [preceded, applying]

end Request

/-! ## Parsers -/

/-- What is assumed of a parser. It takes options one at a time, before the symbol or behind it. Two
hyphens before the first operand end the options and are dropped, and the operands take all that follows
the first of them. -/
structure ArgumentLaws (parse : List String → Except Ending Request) : Prop where
  before : ∀ {s : Setting} {args r}, s.IsOrdinary → (s.isVerbose = true → r.verbose = false) →
    parse args = .ok r → parse (s.arguments ++ args) = .ok (r.preceded [s])
  behind : ∀ {s : Setting} {symbol args r}, s.IsOrdinary → IsOrdinary symbol →
    parse (s.arguments ++ symbol :: args) = .ok r → parse (symbol :: (s.arguments ++ args)) = .ok r
  stop : ∀ {symbol} xs, IsOrdinary symbol →
    parse (symbol :: "--" :: xs) = .ok (.applying [] symbol xs)
  operand : ∀ {symbol x}, IsOrdinary symbol → IsOrdinary x →
    parse [symbol, x] = .ok (.applying [] symbol [x])
  trailing : ∀ {args r} rest, parse args = .ok r → r.operands ≠ [] →
    parse (args ++ rest) = .ok { r with operands := r.operands ++ rest }

namespace ArgumentLaws

variable {parse : List String → Except Ending Request} {symbol : String} {args : List String}
  {r : Request} {before after settings : List Setting}

theorem before_all (h : ArgumentLaws parse) (ho : ∀ s ∈ settings, s.IsOrdinary)
    (hr : r.Admits settings) (hparse : parse args = .ok r) :
    parse (settings.flatMap Setting.arguments ++ args) = .ok (r.preceded settings) := by
  induction settings with
  | nil => exact hparse
  | cons s settings ih =>
    obtain ⟨hs, ho⟩ := List.forall_mem_cons.1 ho
    obtain ⟨hr, hquiet⟩ := hr.of_cons
    rw [List.flatMap_cons, List.append_assoc, ← Request.preceded_cons]
    exact h.before hs hquiet (ih ho hr)

/-- Each option is put before the symbol, and then moved behind it. -/
theorem behind_all (h : ArgumentLaws parse) (hsymbol : IsOrdinary symbol)
    (ho : ∀ s ∈ settings, s.IsOrdinary) (hr : r.Admits settings)
    (hparse : parse (symbol :: args) = .ok r) :
    parse (symbol :: (settings.flatMap Setting.arguments ++ args)) = .ok (r.preceded settings) := by
  induction settings with
  | nil => exact hparse
  | cons s settings ih =>
    obtain ⟨hs, ho⟩ := List.forall_mem_cons.1 ho
    obtain ⟨hr, hquiet⟩ := hr.of_cons
    rw [List.flatMap_cons, List.append_assoc, ← Request.preceded_cons]
    exact h.behind hs hsymbol (h.before hs hquiet (ih ho hr))

end ArgumentLaws

/-- The arguments of an application with options before and after the symbol. -/
def line (before after : List Setting) (symbol : String) : List String :=
  before.flatMap Setting.arguments ++ symbol :: after.flatMap Setting.arguments

section Line

variable {parse : List String → Except Ending Request} (h : ArgumentLaws parse)
  {before after : List Setting} (hwf : Setting.WellFormed (before ++ after)) {symbol : String}
  (hsymbol : IsOrdinary symbol)
include h hwf hsymbol

/-- With options around the symbol a request is the one without them, and what they set. -/
theorem ArgumentLaws.line {args operands : List String}
    (hparse : parse (symbol :: args) = .ok (.applying [] symbol operands)) :
    parse (line before after symbol ++ args) = .ok (.applying (before ++ after) symbol operands) := by
  have hcount := hwf.once
  rw [List.countP_append] at hcount
  have hafter : (Request.applying [] symbol operands).Admits after := by
    unfold Request.Admits
    simp only [Request.applying, List.any_nil, Bool.toNat_false]
    omega
  have hbefore : (Request.applying after symbol operands).Admits before := by
    have hany : (after.any Setting.isVerbose).toNat ≤ after.countP Setting.isVerbose := by
      cases hv : after.any Setting.isVerbose with
      | false => exact Nat.zero_le _
      | true => exact List.countP_pos_iff.2 (List.any_eq_true.1 hv)
    unfold Request.Admits
    simp only [Request.applying]
    omega
  have hbehind := h.behind_all hsymbol (fun s hs => hwf.ordinary s (List.mem_append_right _ hs))
    hafter hparse
  rw [Request.preceded_applying, List.append_nil] at hbehind
  have hall := h.before_all (fun s hs => hwf.ordinary s (List.mem_append_left _ hs)) hbefore hbehind
  rw [Request.preceded_applying] at hall
  rw [CommandLine.line, List.append_assoc, List.cons_append]
  exact hall

theorem ArgumentLaws.line_stop (xs : List String) :
    parse (CommandLine.line before after symbol ++ "--" :: xs) =
      .ok (.applying (before ++ after) symbol xs) :=
  h.line hwf hsymbol (h.stop xs hsymbol)

theorem ArgumentLaws.line_operand {x : String} (hx : IsOrdinary x) (rest : List String) :
    parse (CommandLine.line before after symbol ++ x :: rest) =
      .ok (.applying (before ++ after) symbol (x :: rest)) := by
  have hfirst := h.line hwf hsymbol (h.operand hsymbol hx)
  have hall := h.trailing rest hfirst (List.cons_ne_nil _ _)
  rwa [List.append_assoc] at hall

end Line

/-! ## The scanner -/

theorem Word.ofArgument_eq_plain {a : String} (h : IsOrdinary a) : Word.ofArgument a = .plain := by
  obtain rfl | h := h
  · rfl
  · unfold Word.ofArgument
    -- The other words begin with a hyphen.
    split
    · next ha => exact absurd (congrArg List.head? ha) h
    · next ha => exact absurd (congrArg List.head? ha) h
    · next ha => exact absurd (congrArg List.head? ha) h
    · rfl

theorem Word.ofArgument_attached (text : String) :
    Word.ofArgument ("--var=" ++ text) = .assign (some text) := by
  have hchars : ("--var=" ++ text).toList = '-' :: '-' :: 'v' :: 'a' :: 'r' :: '=' :: text.toList := by
    rw [String.toList_append]
    rfl
  have hlong : Word.ofLong ('v' :: 'a' :: 'r' :: '=' :: text.toList) =
      .assign (some (String.ofList text.toList)) := by
    rfl
  rw [String.ofList_toList] at hlong
  unfold Word.ofArgument
  rw [hchars]
  exact hlong

namespace Request

/-- Scans that end in a request, by their first step. -/
inductive Scans : Request → List String → Request → Prop where
  | done {r : Request} : Scans r [] r
  | stop {r : Request} {a : String} {rest : List String} (ha : Word.ofArgument a = .stop) :
    Scans r (a :: rest) (r.close rest)
  | attached {r r' : Request} {a text : String} {rest : List String}
    (ha : Word.ofArgument a = .assign (some text)) (h : Scans (r.assign text) rest r') :
    Scans r (a :: rest) r'
  | next {r r' : Request} {a text : String} {rest : List String}
    (ha : Word.ofArgument a = .assign none) (htext : r.acceptsText text = true)
    (h : Scans (r.assign text) rest r') : Scans r (a :: text :: rest) r'
  | flags {r r₁ r' : Request} {a : String} {fs : List (Option Flag)} {rest : List String}
    (ha : Word.ofArgument a = .flags fs) (hraise : r.raise fs = .ok r₁) (h : Scans r₁ rest r') :
    Scans r (a :: rest) r'
  /-- The first operand ends the options, also when it has hyphens and is no option. -/
  | operand {r : Request} {a : String} {rest : List String}
    (ha : Word.ofArgument a = .plain ∨ (Word.ofArgument a).isForeign = true)
    (hr : r.symbol.isSome = true) : Scans r (a :: rest) { r with operands := a :: rest }
  | symbol {r r' : Request} {a : String} {rest : List String} (ha : Word.ofArgument a = .plain)
    (hr : r.symbol = none) (h : Scans { r with symbol := some a } rest r') : Scans r (a :: rest) r'

theorem contains_none_of_raise {r r' : Request} {fs : List (Option Flag)}
    (h : r.raise fs = .ok r') : fs.contains none = false := by
  fun_induction raise r fs <;> simp_all

theorem scan_eq_ok_iff {r r' : Request} {args : List String} :
    r.scan args = .ok r' ↔ Scans r args r' := by
  constructor
  · intro h
    fun_induction scan r args with
    | case1 r =>
      cases h
      exact .done
    | case2 r a rest ha =>
      cases h
      exact .stop ha
    | case3 r a rest text ha ih => exact .attached ha (ih h)
    | case5 r a ha text rest htext ih => exact .next ha htext (ih h)
    | case7 r a rest fs ha hforeign =>
      obtain ⟨hr, hfs⟩ := Bool.and_eq_true_iff.1 hforeign
      cases h
      exact .operand (.inr (by rwa [ha])) hr
    | case8 r a rest fs ha hforeign r₁ hraise ih => exact .flags ha hraise (ih h)
    | case11 r a rest ha hr =>
      cases h
      exact .operand (.inl ha) hr
    | case12 r a rest ha hr ih => exact .symbol ha (Option.not_isSome_iff_eq_none.1 hr) (ih h)
    -- In the other cases the arguments are no request.
    | _ => cases h
  · intro h
    induction h with
    | done => rfl
    | stop ha => rw [scan.eq_def]; simp only [ha]
    | attached ha _ ih => rw [scan.eq_def]; simp only [ha, ih]
    | next ha htext _ ih => rw [scan.eq_def]; simp only [ha, htext, if_true, ih]
    | flags ha hraise _ ih =>
      rw [scan.eq_def]
      simp only [ha, contains_none_of_raise hraise, Bool.and_false, Bool.false_eq_true, if_false,
        hraise, ih]
    | @operand r a rest ha hr =>
      rw [scan.eq_def]
      cases hword : Word.ofArgument a <;> simp_all [Word.isForeign]
    | symbol ha hr _ ih =>
      rw [scan.eq_def]
      simp only [ha, hr, Option.isSome_none, Bool.false_eq_true, if_false, ih]

/-! ### What was set before -/

section Flags

variable {r r' : Request} {fs : List (Option Flag)}

theorem raise_list (hr : r.listing = false) :
    r.raise (some .list :: fs) = { r with listing := true }.raise fs := by
  rw [raise, hr, if_neg Bool.false_ne_true]

theorem raise_verbose (hr : r.verbose = false) :
    r.raise (some .verbose :: fs) = { r with verbose := true }.raise fs := by
  rw [raise, hr, if_neg Bool.false_ne_true]

theorem verbose_of_raise (h : r.raise fs = .ok r') (hr : r.verbose = true) : r'.verbose = true := by
  fun_induction raise r fs <;> simp_all

theorem raise_preceded {settings : List Setting} (h : r.raise fs = .ok r')
    (hv : settings.any Setting.isVerbose = true → r'.verbose = false) :
    (r.preceded settings).raise fs = .ok (r'.preceded settings) := by
  fun_induction raise r fs with
  | case1 r =>
    cases h
    rfl
  | case3 r fs hlisting ih =>
    refine (raise_list ?_).trans (ih h)
    exact Bool.eq_false_iff.2 hlisting
  | case5 r fs hverbose ih =>
    have hset : r'.verbose = true := verbose_of_raise h rfl
    have hquiet : settings.any Setting.isVerbose = false := by
      refine Bool.eq_false_iff.2 fun hs => ?_
      rw [hv hs] at hset
      cases hset
    have hboth : { r.preceded settings with verbose := true } =
        { r with verbose := true }.preceded settings := by
      simp [preceded]
    rw [raise_verbose (by simp [preceded, hquiet, hverbose]), hboth]
    exact ih h
  | _ => cases h

end Flags

theorem close_preceded (r : Request) (settings : List Setting) (args : List String) :
    (r.preceded settings).close args = (r.close args).preceded settings := by
  cases args with
  | nil => rfl
  | cons a rest => cases hr : r.symbol <;> simp [close, preceded, hr]

theorem assign_preceded (r : Request) (settings : List Setting) (text : String) :
    (r.preceded settings).assign text = (r.assign text).preceded settings := by
  simp [assign, preceded]

theorem Scans.verbose {r r' : Request} {args : List String} (h : Scans r args r')
    (hr : r.verbose = true) : r'.verbose = true := by
  induction h with
  | done => exact hr
  | @stop r a rest _ => cases rest <;> cases hsymbol : r.symbol <;> simp [close, hsymbol, hr]
  | attached _ _ ih | next _ _ _ ih | symbol _ _ _ ih => exact ih hr
  | flags _ hraise _ ih => exact ih (verbose_of_raise hraise hr)
  | operand _ _ => exact hr

theorem Scans.preceded {r r' : Request} {args : List String} {settings : List Setting}
    (h : Scans r args r') (hv : settings.any Setting.isVerbose = true → r'.verbose = false) :
    Scans (r.preceded settings) args (r'.preceded settings) := by
  induction h with
  | done => exact .done
  | stop ha => exact close_preceded _ settings _ ▸ .stop ha
  | attached ha _ ih =>
    refine .attached ha ?_
    rw [assign_preceded]
    exact ih hv
  | next ha htext _ ih =>
    refine .next ha htext ?_
    rw [assign_preceded]
    exact ih hv
  | @flags r r₁ r' a fs rest ha hraise h ih =>
    refine .flags ha (raise_preceded hraise fun hs => ?_) (ih hv)
    refine Bool.eq_false_iff.2 fun hr => ?_
    rw [h.verbose hr] at hv
    exact Bool.noConfusion (hv hs)
  | operand ha hr => exact .operand ha hr
  | symbol ha hr _ ih => exact .symbol ha hr (ih hv)

/-! ### What follows the first operand -/

theorem close_append {r : Request} (hr : r.operands = []) {args : List String}
    (h : (r.close args).operands ≠ []) (rest : List String) :
    r.close (args ++ rest) = { r.close args with operands := (r.close args).operands ++ rest } := by
  cases args with
  | nil => exact absurd hr h
  | cons a args => cases hs : r.symbol <;> simp [close, hs]

theorem operands_of_raise {r r' : Request} {fs : List (Option Flag)} (h : r.raise fs = .ok r') :
    r'.operands = r.operands := by
  fun_induction raise r fs <;> simp_all

theorem Scans.append {r r' : Request} {args : List String} (h : Scans r args r')
    (hr : r.operands = []) (hoperands : r'.operands ≠ []) (rest : List String) :
    Scans r (args ++ rest) { r' with operands := r'.operands ++ rest } := by
  induction h with
  | done => exact absurd hr hoperands
  | stop ha => exact close_append hr hoperands rest ▸ .stop ha
  | attached ha _ ih => exact .attached ha (ih hr hoperands)
  | next ha htext _ ih => exact .next ha htext (ih hr hoperands)
  | flags ha hraise _ ih =>
    exact .flags ha hraise (ih ((operands_of_raise hraise).trans hr) hoperands)
  | operand ha hsymbol => exact .operand ha hsymbol
  | symbol ha hsymbol _ ih => exact .symbol ha hsymbol (ih hr hoperands)

/-! ### One option -/

theorem scan_symbol {r : Request} {a : String} (ha : IsOrdinary a) (hr : r.symbol = none)
    (args : List String) : r.scan (a :: args) = { r with symbol := some a }.scan args := by
  rw [scan.eq_def]
  simp only [Word.ofArgument_eq_plain ha, hr, Option.isSome_none, Bool.false_eq_true, if_false]

/-- Before the first assignment it makes no difference on which side of the others it is set. -/
theorem scan_arguments {r : Request} {s : Setting} (hs : s.IsOrdinary) (hr : r.verbose = false)
    (ha : r.assignments = []) (args : List String) :
    r.scan (s.arguments ++ args) = (r.preceded [s]).scan args := by
  cases s with
  | assign text =>
    have hword : Word.ofArgument "--var" = .assign none := rfl
    have haccepts : r.acceptsText text = true := by
      rw [acceptsText, Word.ofArgument_eq_plain hs]
      rfl
    have hassign : r.assign text = r.preceded [.assign text] := by
      simp [assign, preceded, ha, Setting.isVerbose, Setting.text?]
    show r.scan ("--var" :: text :: args) = _
    rw [scan.eq_def]
    simp only [hword, haccepts, if_true, hassign]
  | attach text =>
    have hassign : r.assign text = r.preceded [.attach text] := by
      simp [assign, preceded, ha, Setting.isVerbose, Setting.text?]
    show r.scan (("--var=" ++ text) :: args) = _
    rw [scan.eq_def]
    simp only [Word.ofArgument_attached, hassign]
  | verbose long =>
    have hword : Word.ofArgument (if long then "--verbose" else "-v") = .flags [some .verbose] := by
      cases long <;> rfl
    have hraise : r.raise [some .verbose] = .ok (r.preceded [.verbose long]) := by
      simp [raise, preceded, hr, ha, Setting.isVerbose, Setting.text?]
    have hforeign : [some Flag.verbose].contains none = false := rfl
    show r.scan ((if long then "--verbose" else "-v") :: args) = _
    rw [scan.eq_def]
    simp only [hword, hforeign, hraise, Bool.and_false, Bool.false_eq_true, if_false]

/-! ### The laws -/

theorem ofArguments_eq_ok_iff {args : List String} {r : Request} :
    ofArguments args = .ok r ↔ empty.scan args = .ok r ∧ (r.symbol.isSome || r.listing) = true := by
  unfold ofArguments
  cases empty.scan args with
  | error e => exact iff_of_false nofun nofun
  | ok r' =>
    show (if (r'.symbol.isSome || r'.listing) = true then Except.ok r'
      else Except.error Ending.misuse) = .ok r ↔ _
    by_cases hr : (r'.symbol.isSome || r'.listing) = true
    · rw [if_pos hr]
      constructor
      · intro h
        cases h
        exact ⟨rfl, hr⟩
      · exact And.left
    · rw [if_neg hr]
      refine iff_of_false nofun ?_
      rintro ⟨h, hr'⟩
      cases h
      exact hr hr'

theorem argumentLaws : ArgumentLaws ofArguments where
  before {s args r} hs hv h := by
    obtain ⟨hscan, hr⟩ := ofArguments_eq_ok_iff.1 h
    have hquiet : [s].any Setting.isVerbose = true → r.verbose = false := by
      simpa using hv
    refine ofArguments_eq_ok_iff.2 ⟨?_, hr⟩
    rw [scan_arguments hs rfl rfl]
    exact scan_eq_ok_iff.2 ((scan_eq_ok_iff.1 hscan).preceded hquiet)
  behind {s symbol args r} hs hsymbol h := by
    obtain ⟨hscan, hr⟩ := ofArguments_eq_ok_iff.1 h
    refine ofArguments_eq_ok_iff.2 ⟨?_, hr⟩
    rw [scan_arguments hs rfl rfl, scan_symbol hsymbol rfl] at hscan
    rw [scan_symbol hsymbol rfl, scan_arguments hs rfl rfl]
    exact hscan
  stop {symbol} xs hsymbol := by
    refine ofArguments_eq_ok_iff.2 ⟨?_, rfl⟩
    rw [scan_symbol hsymbol rfl]
    have hclose : { empty with symbol := some symbol }.close xs = applying [] symbol xs := by
      cases xs <;> rfl
    rw [scan_eq_ok_iff, ← hclose]
    exact .stop rfl
  operand {symbol x} hsymbol hx := by
    refine ofArguments_eq_ok_iff.2 ⟨?_, rfl⟩
    rw [scan_symbol hsymbol rfl]
    exact scan_eq_ok_iff.2 (.operand (.inl (Word.ofArgument_eq_plain hx)) rfl)
  trailing {args r} rest h hoperands := by
    obtain ⟨hscan, hr⟩ := ofArguments_eq_ok_iff.1 h
    refine ofArguments_eq_ok_iff.2 ⟨?_, hr⟩
    exact scan_eq_ok_iff.2 ((scan_eq_ok_iff.1 hscan).append rfl hoperands rest)

end Request

/-! ## Commands -/

/-- **Operands stand as they are.** Take any parser with the laws, the scanner being one. Behind a symbol
with well-formed options before and after it, two hyphens make an operand of each argument that follows
them, and without them an ordinary argument does so of itself and of each that follows it. The
assignments of the request are the texts of the options, in their order, and there are no others; so the
operator is applied to what the operands are read as, where names have what the last of these assignments
gives them. -/
theorem operands_verbatim :
    ArgumentLaws Request.ofArguments ∧
    ∀ parse : List String → Except Ending Request, ArgumentLaws parse →
      ∀ (before after : List Setting) (symbol : String), Setting.WellFormed (before ++ after) →
      IsOrdinary symbol → ∀ xs : List String,
        let r := Request.applying (before ++ after) symbol xs
        (parse (line before after symbol ++ "--" :: xs) = .ok r ∧
          answer parse (line before after symbol ++ "--" :: xs) = r.reply) ∧
        (∀ x rest, xs = x :: rest → IsOrdinary x →
          parse (line before after symbol ++ xs) = .ok r ∧
          answer parse (line before after symbol ++ xs) = r.reply) ∧
        ∀ as operands,
          List.Forall₂ (fun text a => Assignment.read text = .ok a)
            ((before ++ after).filterMap Setting.text?) as →
          List.Forall₂ (fun text v => Value.read text = .ok v) xs operands →
          r.outcome = builtins.apply symbol operands (lastAssigned as) := by
  refine ⟨Request.argumentLaws, ?_⟩
  intro parse h before after symbol hwf hsymbol xs r
  refine ⟨?_, ?_, ?_⟩
  · have hparse := h.line_stop hwf hsymbol xs
    exact ⟨hparse, answer_of_ok hparse⟩
  · rintro x rest rfl hx
    have hparse := h.line_operand hwf hsymbol hx rest
    exact ⟨hparse, answer_of_ok hparse⟩
  · intro as operands ha ho
    exact Request.comesTo_iff.1 (.application ha ho)

/-- Options before and after a symbol that looks like one, and operands that look like options and like
the end of them; then such operands without the hyphens in front, after an ordinary one. -/
theorem operands_verbatim_hyphens :
    Request.ofArguments ["--var=x=--list", "-v", "-", "--var", "y=1", "--", "--var", "--", "-h"] =
      .ok ⟨false, true, ["x=--list", "y=1"], some "-", ["--var", "--", "-h"]⟩ ∧
    run ["-v", "-", "1", "--list", "--", "-v", "--var=y=2", "--help"] =
      Request.reply ⟨false, true, [], some "-", ["1", "--list", "--", "-v", "--var=y=2", "--help"]⟩ := by
  obtain ⟨hlaws, hlines⟩ := operands_verbatim
  have hhyphen : IsOrdinary "-" := .inl rfl
  refine ⟨?_, ?_⟩
  · have hwf : Setting.WellFormed [.attach "x=--list", .verbose false, .assign "y=1"] :=
      ⟨by simp [Setting.IsOrdinary, IsOrdinary], by decide⟩
    exact (hlines _ hlaws [.attach "x=--list", .verbose false] [.assign "y=1"] "-" hwf hhyphen
      ["--var", "--", "-h"]).1.1
  · have hwf : Setting.WellFormed [.verbose false] := ⟨by simp [Setting.IsOrdinary], by decide⟩
    exact ((hlines _ hlaws [.verbose false] [] "-" hwf hhyphen
      ["1", "--list", "--", "-v", "--var=y=2", "--help"]).2.1 "1" _ rfl (.inr (by decide))).2

/-- Before the first operand the same arguments are options. -/
example : Request.ofArguments ["-v", "-", "--help", "1"] = .error .help := rfl

end Formula.CommandLine
