import PolicyMend.Json.Record
import PolicyMend.Proofs.JsonTokens

/-!
Lists, records and choices of JSON text, read back. Elements and fields are written with commas
between them and are read by loops whose state says whether one was read before. Main statement: a
record whose fields are read back, absent ones left out, is read back itself.
-/

namespace PolicyMend.Json

variable {α σ : Type}

/-! ### Written lists -/

/-- Some texts with a comma before each. -/
def followers (texts : List (List Char)) : List Char := texts.flatMap fun text => ',' :: text

theorem followers_cons (text : List Char) (texts : List (List Char)) :
    followers (text :: texts) = ',' :: text ++ followers texts := rfl

theorem intercalate_eq_followers (text : List Char) (texts : List (List Char)) :
    [','].intercalate (text :: texts) = text ++ followers texts := by
  induction texts generalizing text with
  | nil => simp [followers]
  | cons next texts ih =>
    rw [List.intercalate_cons_cons, ih, followers_cons, List.append_assoc]
    rfl

theorem length_le_followers (texts : List (List Char)) :
    texts.length ≤ (followers texts).length := by
  induction texts with
  | nil => exact Nat.le_refl 0
  | cons text texts ih =>
    simp only [followers, List.flatMap_cons, List.length_append, List.length_cons] at ih ⊢
    omega

theorem ended_followers {mark : Char} (closes : mark = ']' ∨ mark = '}')
    (texts : List (List Char)) (rest : List Char) : Ended (followers texts ++ mark :: rest) := by
  intro c found
  cases texts with
  | nil =>
    obtain rfl : mark = c := Option.some.inj found
    exact .inr closes
  | cons text texts =>
    obtain rfl : ',' = c := Option.some.inj found
    exact .inl rfl

theorem compactElements_eq (elements : List Json) :
    compactElements elements = [','].intercalate (elements.map compact) := by
  induction elements with
  | nil => rfl
  | cons element elements ih =>
    cases elements with
    | nil => simp [compactElements]
    | cons next elements =>
      rw [compactElements, ih]
      simp [List.intercalate_cons_cons]

/-- A field as it is written, after the opening quote of its key. -/
def keyed (field : String × Json) : List Char :=
  field.1.toList.flatMap escape ++ '"' :: ':' :: compact field.2

theorem compactFields_eq (fields : List (String × Json)) :
    compactFields fields = [','].intercalate (fields.map fun field => '"' :: keyed field) := by
  induction fields with
  | nil => rfl
  | cons field fields ih =>
    obtain ⟨name, value⟩ := field
    cases fields with
    | nil => simp [compactFields, keyed, quoted]
    | cons next fields =>
      rw [compactFields, ih]
      simp [List.intercalate_cons_cons, keyed, quoted]

/-! ### Lists -/

theorem elementAhead_close (first : Bool) (rest : List Char) :
    elementAhead first (']' :: rest) = .ok (false, ']' :: rest) := by
  rw [elementAhead, next_cons (by decide)]
  rfl

theorem Opens.elementAhead_first {text : List Char} (opens : Opens text) (rest : List Char) :
    elementAhead true (text ++ rest) = .ok (true, text ++ rest) := by
  obtain ⟨c, tail, rfl, visible, notEnd, -⟩ := opens
  rw [List.cons_append, elementAhead, next_cons visible, ok_bind]
  dsimp only
  rw [if_neg notEnd]
  rfl

theorem Opens.elementAhead_later {text : List Char} (opens : Opens text) (rest : List Char) :
    elementAhead false (',' :: (text ++ rest)) = .ok (true, text ++ rest) := by
  obtain ⟨c, tail, rfl, visible, notEnd, -⟩ := opens
  rw [List.cons_append, elementAhead, next_cons (by decide), ok_bind]
  dsimp only
  rw [if_neg (by decide), if_neg (by decide), if_pos rfl, next_cons visible, ok_bind]
  exact if_neg notEnd

/-- The closing bracket is seen and left where it is, and then it is dropped. -/
theorem elements_closed (read : Reader α) {text after rest : List Char} {first : Bool}
    (goesOn : elementAhead first text = .ok (false, after)) (closed : dropMark ']' after = .ok rest)
    (c : Char) (bound : List Char) : elements read (c :: bound) first text = .ok ([], rest) := by
  rw [elements, goesOn, ok_bind]
  dsimp only
  rw [if_neg Bool.false_ne_true, closed]
  rfl

theorem elements_close (read : Reader α) (step : Char) (bound : List Char) (first : Bool)
    (rest : List Char) : elements read (step :: bound) first (']' :: rest) = .ok ([], rest) :=
  elements_closed read (elementAhead_close first rest) rfl step bound

theorem elements_step {read : Reader α} {first : Bool} {text ahead later rest bound : List Char}
    {item : α} {items : List α} (goesOn : elementAhead first text = .ok (true, ahead))
    (taken : read ahead = .ok (item, later))
    (others : elements read bound false later = .ok (items, rest)) (step : Char) :
    elements read (step :: bound) first text = .ok (item :: items, rest) := by
  rw [elements, goesOn, ok_bind]
  dsimp only
  rw [if_pos rfl, taken, ok_bind]
  dsimp only
  rw [others]
  rfl

theorem elements_followers {read : Reader α} {text : α → List Char} {items : List α}
    (reads : ∀ item ∈ items, Reads read (text item) item) {bound : List Char}
    (enough : items.length < bound.length) (rest : List Char) :
    elements read bound false (followers (items.map text) ++ ']' :: rest) = .ok (items, rest) := by
  induction items generalizing bound with
  | nil =>
    obtain ⟨step, bound, rfl⟩ := List.exists_cons_of_length_pos enough
    exact elements_close read step bound false rest
  | cons item items ih =>
    obtain ⟨step, bound, rfl⟩ := List.exists_cons_of_length_pos (Nat.zero_lt_of_lt enough)
    obtain ⟨opens, takes⟩ := reads item List.mem_cons_self
    have others := ih (fun other member => reads other (List.mem_cons_of_mem item member))
      (Nat.lt_of_succ_lt_succ enough)
    have taken := takes _ (ended_followers (.inl rfl) (items.map text) rest)
    rw [List.map_cons, followers_cons, List.append_assoc]
    exact elements_step (opens.elementAhead_later _) taken others step

theorem listBody_intercalate {read : Reader α} {text : α → List Char} {items : List α}
    (reads : ∀ item ∈ items, Reads read (text item) item) (rest : List Char) :
    listBody read ([','].intercalate (items.map text) ++ ']' :: rest) = .ok (items, rest) := by
  cases items with
  | nil => exact elements_close read ']' rest true rest
  | cons item items =>
    obtain ⟨opens, takes⟩ := reads item List.mem_cons_self
    have taken := takes _ (ended_followers (.inl rfl) (items.map text) rest)
    have ahead := opens.elementAhead_first (followers (items.map text) ++ ']' :: rest)
    obtain ⟨c, tail, shown, -⟩ := opens
    -- Every comma before an element is a character of the bound.
    have others := @elements_followers _ read text items
      (fun other member => reads other (List.mem_cons_of_mem item member))
      (tail ++ (followers (items.map text) ++ ']' :: rest)) (by
        have commas := length_le_followers (items.map text)
        simp only [List.length_map, List.length_append, List.length_cons] at commas ⊢
        omega) rest
    rw [listBody, List.map_cons, intercalate_eq_followers, List.append_assoc]
    rw [shown] at ahead taken ⊢
    exact elements_step ahead taken others c

theorem reads_list {read : Reader α} {toJson : α → Json} {items : List α}
    (reads : ∀ item ∈ items, Reads read (compact (toJson item)) item) :
    Reads (Reader.list read) (compact (.array (items.map toJson))) items where
  opens := ⟨'[', _, rfl, by decide, by decide, by decide⟩
  takes rest _ := by
    have body := listBody_intercalate reads rest
    rw [compact, compactElements_eq, List.map_map, List.cons_append, List.append_assoc,
      Reader.list, next_cons (by decide), ok_bind]
    exact body

/-! ### Objects -/

theorem keyAhead_close (first : Bool) (rest : List Char) :
    keyAhead first ('}' :: rest) = .ok (false, '}' :: rest) := by
  rw [keyAhead, next_cons (by decide)]
  rfl

theorem keyAhead_first (rest : List Char) : keyAhead true ('"' :: rest) = .ok (true, rest) := by
  rw [keyAhead, next_cons (by decide)]
  rfl

theorem keyAhead_later (rest : List Char) :
    keyAhead false (',' :: '"' :: rest) = .ok (true, rest) := by
  rw [keyAhead, next_cons (by decide), ok_bind]
  dsimp only
  rw [if_neg (by decide), if_neg (by decide), if_pos rfl, next_cons (by decide)]
  rfl

/-- Steps that take the fields of an object one after the other from one state to another. -/
inductive Gathers (step : σ → Reader σ) : List (String × Json) → σ → σ → Prop where
  | nil (found : σ) : Gathers step [] found found
  | cons {field : String × Json} {fields : List (String × Json)} {before between after : σ}
      (takes : ∀ rest, Ended rest → step before (keyed field ++ rest) = .ok (between, rest))
      (later : Gathers step fields between after) : Gathers step (field :: fields) before after

theorem members_closed (step : σ → Reader σ) {text after rest : List Char}
    {first : Bool} (goesOn : keyAhead first text = .ok (false, after))
    (closed : dropMark '}' after = .ok rest) (found : σ) (c : Char) (bound : List Char) :
    members step (c :: bound) first found text = .ok (found, rest) := by
  rw [members, goesOn, ok_bind]
  dsimp only
  rw [if_neg Bool.false_ne_true, closed]
  rfl

theorem members_close (step : σ → Reader σ) (found : σ) (c : Char) (bound : List Char)
    (first : Bool) (rest : List Char) :
    members step (c :: bound) first found ('}' :: rest) = .ok (found, rest) :=
  members_closed step (keyAhead_close first rest) rfl found c bound

theorem members_step {step : σ → Reader σ} {first : Bool} {text ahead later bound : List Char}
    {before between : σ} (goesOn : keyAhead first text = .ok (true, ahead))
    (taken : step before ahead = .ok (between, later)) (c : Char) :
    members step (c :: bound) first before text = members step bound false between later := by
  rw [members, goesOn, ok_bind]
  dsimp only
  rw [if_pos rfl, taken]
  rfl

theorem Gathers.followers {step : σ → Reader σ} {fields : List (String × Json)} {before after : σ}
    (gathers : Gathers step fields before after) {bound : List Char}
    (enough : fields.length < bound.length) (rest : List Char) :
    members step bound false before
      (followers (fields.map fun field => '"' :: keyed field) ++ '}' :: rest) =
        .ok (after, rest) := by
  induction gathers generalizing bound with
  | nil found =>
    obtain ⟨c, bound, rfl⟩ := List.exists_cons_of_length_pos enough
    exact members_close step found c bound false rest
  | @cons field fields before between after takes later ih =>
    obtain ⟨c, bound, rfl⟩ := List.exists_cons_of_length_pos (Nat.zero_lt_of_lt enough)
    have taken := takes _
      (ended_followers (.inr rfl) (fields.map fun field => '"' :: keyed field) rest)
    rw [List.map_cons, followers_cons, List.append_assoc]
    exact (members_step (keyAhead_later _) taken c).trans (ih (Nat.lt_of_succ_lt_succ enough))

theorem Gathers.objectBody {step : σ → Reader σ} {fields : List (String × Json)} {start found : σ}
    (gathers : Gathers step fields start found) (rest : List Char) :
    objectBody step start (compactFields fields ++ '}' :: rest) = .ok (found, rest) := by
  rw [compactFields_eq, Json.objectBody]
  cases gathers with
  | nil => exact members_close step start '}' rest true rest
  | @cons field fields _ between _ takes later =>
    have taken := takes _
      (ended_followers (.inr rfl) (fields.map fun field => '"' :: keyed field) rest)
    have enough := length_le_followers (fields.map fun field => '"' :: keyed field)
    rw [List.map_cons, intercalate_eq_followers, List.append_assoc, List.cons_append]
    refine (members_step (keyAhead_first _) taken '"').trans (later.followers ?_ rest)
    simp only [List.length_map, List.length_append, List.length_cons] at enough ⊢
    omega

/-! ### Records -/

namespace Shape

variable {δ ρ : Type}

def names {δ : Type} : Shape δ → List String
  | .done => []
  | .field name _ rest => name :: rest.names

/-- Fields that are written in the order of a record, the absent ones left out. -/
inductive Written : {δ : Type} → Shape δ → δ → List (String × Json) → Prop where
  | done : Written .done () []
  | absent {α δ : Type} {name : String} {read : Reader α} {shape : Shape δ} {found : δ}
      {fields : List (String × Json)} (others : Written shape found fields) :
      Written (.field name read shape) (none, found) fields
  | present {α δ : Type} {name : String} {read : Reader α} {shape : Shape δ} {found : δ}
      {fields : List (String × Json)} {value : Json} {a : α} (reads : Reads read (compact value) a)
      (others : Written shape found fields) :
      Written (.field name read shape) (some a, found) ((name, value) :: fields)

theorem Written.mem_names {shape : Shape δ} {found : δ} {fields : List (String × Json)}
    (written : shape.Written found fields) : ∀ field ∈ fields, field.1 ∈ shape.names := by
  induction written with
  | done => exact fun _ member => nomatch member
  | absent others ih => exact fun field member => List.mem_cons_of_mem _ (ih field member)
  | present reads others ih =>
    intro field member
    rcases List.mem_cons.mp member with rfl | later
    · exact List.mem_cons_self
    · exact List.mem_cons_of_mem _ (ih field later)

theorem Written.ne_of_fresh {shape : Shape δ} {found : δ} {fields : List (String × Json)}
    (written : shape.Written found fields) {name : String} (fresh : name ∉ shape.names) :
    ∀ field ∈ fields, field.1 ≠ name := by
  intro field member same
  exact fresh (same ▸ written.mem_names field member)

theorem member_keyed (unknown : Unknown) (shape : Shape δ) (found : δ) (field : String × Json)
    (rest : List Char) :
    shape.member unknown found (keyed field ++ rest) =
      shape.put unknown field.1 found (':' :: (compact field.2 ++ rest)) := by
  rw [member, keyed, List.append_assoc, List.cons_append, stringBody_quoted]
  rfl

/-- A field of another name lets the later ones of its record be gathered. -/
theorem gathers_field {α : Type} {unknown : Unknown} {shape : Shape δ} {before after : δ}
    {fields : List (String × Json)} (gathers : Gathers (shape.member unknown) fields before after)
    {name : String} (others : ∀ field ∈ fields, field.1 ≠ name) (read : Reader α)
    (own : Option α) :
    Gathers ((Shape.field name read shape).member unknown) fields (own, before) (own, after) := by
  induction gathers with
  | nil found => exact .nil (own, found)
  | @cons field fields before between after takes later ih =>
    refine .cons (fun rest ended => ?_)
      (ih fun other member => others other (List.mem_cons_of_mem field member))
    have differ : name ≠ field.1 := (others field List.mem_cons_self).symm
    have taken := takes rest ended
    rw [member_keyed] at taken ⊢
    show (if name = field.1 then _ else _) = _
    rw [if_neg differ, taken]
    rfl

theorem Written.gathers {shape : Shape δ} {found : δ} {fields : List (String × Json)}
    (written : shape.Written found fields) (distinct : shape.names.Nodup) (unknown : Unknown) :
    Gathers (shape.member unknown) fields shape.start found := by
  induction written with
  | done => exact .nil ()
  | @absent α δ name read shape found fields others ih =>
    obtain ⟨fresh, distinct⟩ := List.nodup_cons.mp distinct
    exact gathers_field (ih distinct) (others.ne_of_fresh fresh) read none
  | @present α δ name read shape found fields value a reads others ih =>
    obtain ⟨fresh, distinct⟩ := List.nodup_cons.mp distinct
    have later := gathers_field (ih distinct) (others.ne_of_fresh fresh) read (some a)
    refine .cons (fun rest ended => ?_) later
    rw [member_keyed, start, put, if_pos rfl]
    dsimp only
    rw [dropMark_cons (by decide), ok_bind, reads.takes rest ended]
    rfl

theorem Written.reads {shape : Shape δ} {found : δ} {fields : List (String × Json)}
    (written : shape.Written found fields) (distinct : shape.names.Nodup) {unknown : Unknown}
    {make : δ → Option ρ} {made : ρ} (makes : make found = some made) :
    Reads (shape.record unknown make) (compact (.object fields)) made where
  opens := ⟨'{', _, rfl, by decide, by decide, by decide⟩
  takes rest _ := by
    have body := (written.gathers distinct unknown).objectBody rest
    rw [compact, List.cons_append, List.append_assoc, record, next_cons (by decide), ok_bind]
    dsimp only
    rw [if_pos rfl, List.singleton_append, body, ok_bind]
    dsimp only
    rw [makes]
    rfl

end Shape

/-! ### Options and choices -/

theorem Reads.optional {read : Reader α} {text : List Char} {a : α} (reads : Reads read text a) :
    Reads (Reader.optional read) text (some a) where
  opens := reads.opens
  takes rest ended := by
    have taken := reads.takes rest ended
    obtain ⟨c, tail, rfl, visible, -, notNull⟩ := reads.opens
    rw [List.cons_append] at taken ⊢
    rw [Reader.optional, next_cons visible, ok_bind]
    dsimp only
    rw [if_neg notNull, taken]
    rfl

theorem reads_choice {named : String → Option α} {name : String} {a : α}
    (known : named name = some a) : Reads (Reader.choice named) (quoted name) a where
  opens := ⟨'"', _, rfl, by decide, by decide, by decide⟩
  takes rest _ := by
    rw [Reader.choice, quoted, List.cons_append, List.append_assoc, List.singleton_append,
      next_cons (by decide), ok_bind]
    dsimp only
    rw [if_pos rfl, stringBody_quoted, ok_bind]
    dsimp only
    rw [known]
    rfl

/-! ### Values of any kind -/

theorem compact_ofNat (n : Nat) : compact (Json.ofNat n) = Nat.toDigits 10 n := by
  have unsigned : ¬(n : Int) < 0 := by omega
  rw [Json.ofNat, compact, Number.text, integerText, if_neg unsigned, Int.natAbs_natCast]

theorem reads_value_number {n : Nat} (fits : n ≤ greatestSignificand) (depth : Nat) :
    Reads (keeping.value depth) (compact (Json.ofNat n)) (Json.ofNat n) := by
  obtain ⟨digit, others, filled, isDigit, visible, notEnd, notNull⟩ := exists_digit n
  rw [compact_ofNat]
  refine ⟨⟨digit, others, filled, visible, notEnd, notNull⟩, fun rest ended => ?_⟩
  have number := numberBody_toDigits fits ended
  have other : ∀ mark : Char, mark.isDigit = false → digit ≠ mark := by
    rintro mark noDigit rfl
    exact Bool.false_ne_true (noDigit.symm.trans isDigit)
  have scalar : keeping.scalar digit (others ++ rest) = .ok (Json.ofNat n, rest) := by
    rw [filled, List.cons_append] at number
    rw [Builder.scalar, if_neg notNull, if_neg (other 't' rfl), if_neg (other 'f' rfl),
      if_neg (other '-' rfl), if_pos isDigit]
    show (numberBody false (digit :: (others ++ rest))).map _ = _
    rw [number]
    rfl
  rw [filled, List.cons_append]
  cases depth with
  | zero =>
    rw [Builder.value, next_cons visible]
    exact scalar
  | succ depth =>
    rw [Builder.value, next_cons visible, ok_bind]
    dsimp only
    rw [if_neg (other '[' rfl), if_neg (other '{' rfl)]
    exact scalar

theorem put_of_not_mem {κ ν : Type} [DecidableEq κ] {key : κ} {entries : List (κ × ν)}
    (fresh : key ∉ entries.map Prod.fst) (value : ν) :
    OrderedMap.put key value entries = entries ++ [(key, value)] := by
  induction entries with
  | nil => rfl
  | cons entry entries ih =>
    rw [List.map_cons, List.mem_cons, not_or] at fresh
    rw [OrderedMap.put, if_neg (Ne.symm fresh.1), ih fresh.2]
    rfl

theorem gathers_value {depth : Nat} {fields : List (String × Json)}
    (reads : ∀ field ∈ fields, Reads (keeping.value depth) (compact field.2) field.2)
    {before : List (String × Json)} (distinct : ((before ++ fields).map Prod.fst).Nodup) :
    Gathers (keeping.member (keeping.value depth)) fields before (before ++ fields) := by
  induction fields generalizing before with
  | nil => rw [List.append_nil]; exact .nil before
  | cons field fields ih =>
    have fresh : field.1 ∉ before.map Prod.fst := by
      rw [List.map_append, List.nodup_append] at distinct
      exact fun present => distinct.2.2 _ present _ List.mem_cons_self rfl
    have later := @ih (fun other member => reads other (List.mem_cons_of_mem field member))
      (before ++ [field]) (by rwa [List.append_assoc])
    rw [List.append_assoc] at later
    refine .cons (fun rest ended => ?_) later
    have taken := (reads field List.mem_cons_self).takes rest ended
    have key : keeping.key = stringBody := rfl
    rw [Builder.member, key, keyed, List.append_assoc, List.cons_append, stringBody_quoted, ok_bind]
    dsimp only
    rw [List.cons_append, dropMark_cons (by decide), ok_bind, taken, ok_bind]
    dsimp only
    rw [put_of_not_mem fresh]
    rfl

theorem reads_value_object {depth : Nat} {fields : List (String × Json)}
    (reads : ∀ field ∈ fields, Reads (keeping.value depth) (compact field.2) field.2)
    (distinct : (fields.map Prod.fst).Nodup) :
    Reads (keeping.value (depth + 1)) (compact (.object fields)) (.object fields) where
  opens := ⟨'{', _, rfl, by decide, by decide, by decide⟩
  takes rest _ := by
    have body := (@gathers_value depth fields reads [] distinct).objectBody rest
    rw [compact, List.cons_append, List.append_assoc, Builder.value, next_cons (by decide), ok_bind]
    dsimp only
    rw [if_neg (by decide), if_pos rfl, List.singleton_append, body]
    rfl

end PolicyMend.Json
