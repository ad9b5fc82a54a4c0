import LogoGuess.QuizThrow
import LogoGuess.QuizClock
import LogoGuess.QuizSpell
import LogoGuess.QuizFrame
import LogoGuess.QuizUnmount
import LogoGuess.ThankYou
import LogoGuess.Archive
import LogoGuess.App
import LogoGuess.QuizComplete
import LogoGuess.QuizSession
import LogoGuess.QuizLive
import LogoGuess.ProcessRuns
import LogoGuess.ProcessQuiz
