import Codegen.Text.Ascii

/-!
# Dates and Times

A date is a year of four digits, a month and a day. A time may follow it: after
the letter T with a zone, or after space without one. Numbers other than the year
have one digit or two, and have to fit the calendar and the clock.
-/

namespace Codegen.Yaml

namespace Timestamp

def daysIn (year month : Nat) : Nat :=
  if month = 2 then if year % 4 = 0 && (year % 100 != 0 || year % 400 = 0) then 29 else 28
  else if [4, 6, 9, 11].contains month then 30
  else 31

def value (digits : Bytes) : Nat :=
  digits.foldl (fun n d => n * 10 + (d.toNat - (Ascii.byte '0').toNat)) 0

def number? (text : Bytes) : Option (Nat × Bytes) :=
  let digits := (text.take 2).takeWhile Ascii.isDigit
  if digits.isEmpty then none else some (value digits, text.drop digits.length)

def pair? (text : Bytes) : Option (Nat × Bytes) :=
  if (text.take 2).length = 2 && (text.take 2).all Ascii.isDigit then
    some (value (text.take 2), text.drop 2)
  else none

def past? (c : Char) : Bytes → Option Bytes
  | b :: rest => if b = Ascii.byte c then some rest else none
  | [] => none

/-- Reads a date. -/
def date? (text : Bytes) : Option Bytes := do
  let digits := text.takeWhile Ascii.isDigit
  if digits.length != 4 then none
  let rest ← past? '-' (text.drop 4)
  let (month, rest) ← number? rest
  let rest ← past? '-' rest
  let (day, rest) ← number? rest
  if 1 ≤ month && month ≤ 12 && 1 ≤ day && day ≤ daysIn (value digits) month then some rest
  else none

def fraction (text : Bytes) : Bytes :=
  match text with
  | b :: d :: rest =>
    if (b = Ascii.byte '.' || b = Ascii.byte ',') && Ascii.isDigit d then
      rest.dropWhile Ascii.isDigit
    else text
  | _ => text

def time? (text : Bytes) : Option Bytes := do
  let (hour, rest) ← number? text
  let rest ← past? ':' rest
  let (minute, rest) ← number? rest
  let rest ← past? ':' rest
  let (second, rest) ← number? rest
  if hour < 24 && minute < 60 && second < 60 then some (fraction rest) else none

/-- Moves past a zone: the letter Z, or the difference to it. -/
def zone? (text : Bytes) : Option Bytes :=
  (past? 'Z' text).or do
    let rest ← (past? '+' text).or (past? '-' text)
    let (hours, rest) ← pair? rest
    let rest ← past? ':' rest
    let (minutes, rest) ← pair? rest
    if hours ≤ 24 && minutes ≤ 60 then some rest else none

def zoned? (text : Bytes) : Option Bytes := do
  let rest ← (past? 'T' text).or (past? 't' text)
  zone? (← time? rest)

def spaced? (text : Bytes) : Option Bytes := do
  let rest ← past? ' ' text
  time? (rest.dropWhile (· = Ascii.byte ' '))

/-- Whether a text is a date, with or without a time. -/
def isWritten (text : Bytes) : Bool :=
  (date? text).any fun rest =>
    rest.isEmpty || ((zoned? rest).or (spaced? rest)).any List.isEmpty

end Timestamp

end Codegen.Yaml
