import BasicToC.Main
import BasicToC.Proofs.Build.Source
import BasicToC.Proofs.CommandLine.AllOrNothing
import BasicToC.Proofs.Joining.Composition
import BasicToC.Proofs.Joining.Lines
import BasicToC.Proofs.Layout.Independence
import BasicToC.Proofs.Listing.Literals
import BasicToC.Proofs.Listing.Numerals
import BasicToC.Proofs.Listing.Rereading
import BasicToC.Proofs.Listing.Scope
import BasicToC.Proofs.Outline.Trees
import BasicToC.Proofs.Reading.Calls
import BasicToC.Proofs.Report.Emphasis
import BasicToC.Proofs.Report.Endings
import BasicToC.Proofs.Report.Offence
import BasicToC.Proofs.Report.Traceback
import BasicToC.Proofs.Scanning.Cursor
import BasicToC.Proofs.Scanning.Respelling
